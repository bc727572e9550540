import Mathlib
import RecordLayout.Proofs.Stream.Reading
import RecordLayout.Proofs.Stream.Transaction

/-!
# What reads and writes leave of a stream

Whatever comes of a read, all it has done is to move the cursor: `ByteStream.Looks`. Whatever comes
of a write, it was done on the innermost open transaction, or on the bytes themselves if none is
open: `ByteStream.Stays`. So a transaction that is given up has done nothing, and one that is
committed fails only if writes to the stream below can fail.

Main results:

* `Looked.content` — where only the cursor has moved, the bytes are the same;
* `discard_of_below` — a transaction that is given up leaves the stream it was opened on;
* `commit_stays`, `commit_buffered` — what a commit leaves, and that it succeeds.
-/

namespace RecordLayout

namespace ByteStream

variable {α β : Type} {s t u : ByteStream}

/-! ## Cursors that move -/

/-- Only the cursor has moved. -/
def Looked (s t : ByteStream) : Prop := ∃ p, t = s.setPosition p

theorem Looked.refl (s : ByteStream) : Looked s s := ⟨s.position, (setPosition_position s).symm⟩

/-- One look after another is a look. -/
theorem Looked.trans (h : Looked s t) (h' : Looked t u) : Looked s u := by
  obtain ⟨p, rfl⟩ := h
  obtain ⟨q, rfl⟩ := h'
  exact ⟨q, setPosition_setPosition s p q⟩

/-- Moving the cursor does not change the size. -/
@[simp] theorem size_setPosition (s : ByteStream) (p : Nat) : (s.setPosition p).size = s.size := by
  induction s with
  | memory content cursor => rfl
  | edited under edits => rfl
  | metered left under ih => exact ih
  | piecewise under ih => exact ih

/-- Moving the cursor does not change what is peeked. -/
@[simp] theorem peek_setPosition (s : ByteStream) (p : Nat) : (s.setPosition p).peek = s.peek := by
  induction s with
  | memory content cursor => rfl
  | edited under edits => rfl
  | metered left under ih => exact ih
  | piecewise under ih => exact ih

/-- A look leaves the size. -/
theorem Looked.size (h : Looked s t) : t.size = s.size := by
  obtain ⟨p, rfl⟩ := h
  exact size_setPosition s p

/-- A stream over bytes has these bytes. -/
theorem content_ofBytes (content : Bytes) : (ofBytes content).content = content := by
  show (content.drop 0).take content.length = content
  rw [List.drop_zero, List.take_length]

/-- Where only the cursor has moved, the bytes are the same. -/
theorem Looked.content (h : Looked s t) : t.content = s.content := by
  obtain ⟨p, rfl⟩ := h
  unfold content
  rw [peek_setPosition, size_setPosition]

/-- Whatever comes of the action, only the cursor has moved. -/
def Looks (act : StreamM ByteStream α) : Prop := ∀ s, Looked s (outcome act s).2

namespace Looks

theorem pure (a : α) : Looks (Pure.pure a) := Looked.refl

theorem throw (e : StreamError) : Looks (MonadExcept.throw e : StreamM ByteStream α) := Looked.refl

/-- A look followed by looks is a look, also when one of them fails. -/
theorem bind {act : StreamM ByteStream α} {next : α → StreamM ByteStream β} (h : Looks act)
    (hnext : ∀ a, Looks (next a)) : Looks (act >>= next) := by
  intro s
  have hact := h s
  rw [outcome_bind]
  -- a failing first part is itself the whole run
  cases hrun : act s with
  | ok a t =>
    rw [outcome_of_ok hrun] at hact
    exact hact.trans (hnext a t)
  | error e t =>
    rw [outcome_of_error hrun] at hact
    exact hact

/-- Both branches look, so the choice looks. -/
theorem ite {c : Prop} [Decidable c] {x y : StreamM ByteStream α} (hx : Looks x) (hy : Looks y) :
    Looks (if c then x else y) := by
  split
  · exact hx
  · exact hy

/-- Restating an error does not touch the stream. -/
theorem failingAs {restate : StreamError → StreamError} {act : StreamM ByteStream α}
    (h : Looks act) : Looks (RecordLayout.failingAs restate act) := by
  intro s
  rw [outcome_failingAs]
  exact h s

end Looks

/-! ### Reads -/

/-- Taking bytes moves only the cursor. -/
theorem take_looks (n : Nat) : Looks (take n) := by
  intro s
  unfold outcome take
  by_cases hn : n ≤ s.remaining
  · rw [if_pos hn]
    exact ⟨_, rfl⟩
  · rw [if_neg hn]
    exact .refl s

/-- Advancing moves only the cursor. -/
theorem advance_looks (n : Nat) : Looks (advance n) := by
  intro s
  unfold outcome advance
  by_cases hn : n ≤ s.remaining
  · rw [if_pos hn]
    exact ⟨_, rfl⟩
  · rw [if_neg hn]
    exact .refl s

/-- Skipping piece by piece is a run of takes. -/
theorem skipInPieces_looks (n : Nat) : Looks (skipInPieces take n) := by
  induction n using Nat.strong_induction_on with
  | h n ih =>
    rw [skipInPieces]
    split
    · exact .pure _
    · exact (take_looks _).bind fun _ => ih _ (by omega)

/-- Skipping moves only the cursor, whichever way the stream skips. -/
theorem skip_looks (n : Nat) : Looks (ByteSource.skip n) := by
  intro s
  have hskip : (ByteSource.skip n : StreamM ByteStream Unit) s =
      if s.skipsByReading then skipInPieces take n s else advance n s := rfl
  unfold outcome
  rw [hskip]
  by_cases hreads : s.skipsByReading = true
  · rw [if_pos hreads]
    exact skipInPieces_looks n s
  · rw [if_neg hreads]
    exact advance_looks n s

/-- Reading piece by piece is a run of takes. -/
theorem readInPieces_looks (total start : Nat) : Looks (readInPieces take total start) := by
  induction hleft : total - start using Nat.strong_induction_on generalizing start with
  | h left ih =>
    rw [readInPieces]
    split
    · exact .pure _
    · refine (take_looks _).failingAs.bind fun piece => ?_
      exact (ih _ (by omega) _ rfl).bind fun rest => .pure _

/-- Reading a byte moves only the cursor. -/
theorem readByte_looks : Looks (ByteSource.readByte : StreamM ByteStream UInt8) :=
  (take_looks 1).bind fun _ => .pure _

/-- Reading a word moves only the cursor. -/
theorem readWord_looks (width : Nat) :
    Looks (ByteSource.readWord width : StreamM ByteStream UInt64) :=
  .ite (.throw _) ((take_looks width).bind fun _ => .pure _)

/-- Reading a number of four bytes moves only the cursor. -/
theorem readU32_looks : Looks (ByteSource.readU32 : StreamM ByteStream Nat) :=
  (take_looks 4).bind fun _ => .pure _

/-- Reading a number of eight bytes moves only the cursor. -/
theorem readU64_looks : Looks (ByteSource.readU64 : StreamM ByteStream UInt64) :=
  (take_looks 8).bind fun _ => .pure _

/-- The loop of the varint reader looks at every round. -/
theorem continueVarint_looks (more : Nat) (decoder : Varint.Decoder) :
    Looks (ByteSource.continueVarint more decoder : StreamM ByteStream UInt64) := by
  induction more generalizing decoder with
  | zero => exact .throw _
  | succ more ih =>
    refine readByte_looks.bind fun byte => ?_
    split
    · exact ih _
    · exact .pure _
    · exact .throw _

/-- Reading a varint moves only the cursor. -/
theorem readVarint_looks : Looks (ByteSource.readVarint : StreamM ByteStream UInt64) :=
  continueVarint_looks _ _

/-- Reading a run of bytes moves only the cursor. -/
theorem readBytes_looks (n : Nat) : Looks (ByteSource.readBytes n : StreamM ByteStream Bytes) :=
  readInPieces_looks n 0

/-! ## Writes on the innermost transaction -/

/-- The same transaction is open, and writes still succeed if they did. -/
structure StaysOn (s t : ByteStream) : Prop where
  below : t.below? = s.below?
  buffered : s.Buffered → t.Buffered

theorem StaysOn.refl (s : ByteStream) : StaysOn s s := ⟨rfl, fun h => h⟩

/-- Staying on one kind of stream is transitive. -/
theorem StaysOn.trans (h : StaysOn s t) (h' : StaysOn t u) : StaysOn s u :=
  ⟨h'.below.trans h.below, fun hs => h'.buffered (h.buffered hs)⟩

/-- Moving the cursor stays on the stream. -/
theorem staysOn_setPosition (s : ByteStream) (p : Nat) : StaysOn s (s.setPosition p) := by
  cases s with
  | memory content cursor => exact ⟨rfl, fun h => h⟩
  | edited under edits => exact ⟨rfl, fun h => h⟩
  | metered left under => exact ⟨rfl, fun h => h⟩
  | piecewise under => exact ⟨rfl, fun h => h⟩

/-- Resizing stays on the stream. -/
theorem staysOn_setSize (s : ByteStream) (n : Nat) : StaysOn s (s.setSize n) := by
  cases s with
  | memory content cursor => exact ⟨rfl, fun h => h⟩
  | edited under edits => exact ⟨rfl, fun h => h⟩
  | metered left under => exact ⟨rfl, fun h => h⟩
  | piecewise under => exact ⟨rfl, fun h => h⟩

/-- Writing stays on the stream. -/
theorem staysOn_put {data : Bytes} (h : s.put data = .ok t) : StaysOn s t := by
  cases s with
  | memory content cursor =>
    cases h
    exact ⟨rfl, fun h => h⟩
  | edited under edits =>
    cases h
    exact ⟨rfl, fun h => h⟩
  | metered left under =>
    rw [put] at h
    split at h
    · cases h
    · obtain ⟨under', -, rfl⟩ := map_ok h
      exact ⟨rfl, False.elim⟩
  | piecewise under =>
    obtain ⟨under', -, rfl⟩ := map_ok h
    exact ⟨rfl, False.elim⟩

/-- A look stays on the stream. -/
theorem Looked.staysOn (h : Looked s t) : StaysOn s t := by
  obtain ⟨p, rfl⟩ := h
  exact staysOn_setPosition s p

/-- A write to memory or to a transaction over it succeeds. -/
theorem Buffered.put (h : s.Buffered) (data : Bytes) : ∃ t, s.put data = .ok t := by
  cases s with
  | memory content cursor => exact ⟨_, rfl⟩
  | edited under edits => exact ⟨_, rfl⟩
  | metered left under => exact h.elim
  | piecewise under => exact h.elim

/-- Whatever comes of the action, the same transaction is open. -/
def Stays (act : StreamM ByteStream α) : Prop := ∀ s, StaysOn s (outcome act s).2

/-- A refusal stays on the stream it was made at. -/
theorem Stays.throw (e : StreamError) : Stays (MonadExcept.throw e : StreamM ByteStream α) :=
  StaysOn.refl

/-- A write either succeeds as `put` does or is refused with the stream as it was. -/
theorem write_cases (data : Bytes) (s : ByteStream) :
    (∃ t, (ByteSink.write data : StreamM ByteStream Unit) s = .ok () t ∧ s.put data = .ok t) ∨
      ∃ e, (ByteSink.write data : StreamM ByteStream Unit) s = .error e s ∧
        s.put data = .error e := by
  simp only [ByteSink.write]
  cases s.put data with
  | ok t => exact .inl ⟨t, rfl, rfl⟩
  | error e => exact .inr ⟨e, rfl, rfl⟩

/-- Writing stays on the stream, refused or not. -/
theorem write_stays (data : Bytes) : Stays (ByteSink.write data : StreamM ByteStream Unit) := by
  intro s
  rcases write_cases data s with ⟨t, hrun, hput⟩ | ⟨e, hrun, -⟩
  · rw [outcome_of_ok hrun]
    exact staysOn_put hput
  · rw [outcome_of_error hrun]
    exact .refl s

/-- Writing a word stays on the stream. -/
theorem writeWord_stays (width : Nat) (value : UInt64) :
    Stays (ByteSink.writeWord width value : StreamM ByteStream Unit) := by
  unfold ByteSink.writeWord
  split
  · exact .throw _
  · exact write_stays _

/-! ### Steps -/

/-- What only looks stays. -/
theorem Looks.stays {α : Type} {act : StreamM ByteStream α} (h : Looks act) : Stays act :=
  fun s => (h s).staysOn

/-- Translating the answer changes nothing about the stream. -/
theorem Stays.map {α β : Type} {act : StreamM ByteStream α} (h : Stays act) (f : α → β) :
    Stays (act >>= fun a => Pure.pure (f a)) := by
  intro s
  have hact := h s
  rw [outcome_bind]
  cases hrun : act s with
  | ok a t =>
    rw [outcome_of_ok hrun] at hact
    exact hact
  | error e t =>
    rw [outcome_of_error hrun] at hact
    exact hact

/-- Every step of a reading script stays on its stream. -/
theorem ReadStep.stays (step : ReadStep) : Stays step.run := by
  cases step with
  | bytes n => exact (take_looks n).stays.map _
  | skip n => exact (skip_looks n).stays.map _
  | byte => exact readByte_looks.stays.map _
  | word width => exact (readWord_looks width).stays.map _
  | u32 => exact readU32_looks.stays.map _
  | u64 => exact readU64_looks.stays.map _
  | varint => exact readVarint_looks.stays.map _
  | counted n => exact (readBytes_looks n).stays.map _

/-- Every step of a writing script stays on its stream. -/
theorem WriteStep.stays (step : WriteStep) : Stays step.run := by
  have hdone {act : StreamM ByteStream Unit} (hact : Stays act) :
      Stays (act >>= fun _ => Pure.pure StepAnswer.done) :=
    hact.map fun _ => StepAnswer.done
  cases step with
  | bytes data => exact hdone (write_stays _)
  | byte value => exact hdone (write_stays _)
  | word width value => exact hdone (writeWord_stays width value)
  | u32 value => exact hdone (write_stays _)
  | u64 value => exact hdone (write_stays _)
  | varint value => exact hdone (write_stays _)

/-- A step leaves open what was open. -/
theorem StreamStep.stays (step : StreamStep) : Stays step.run := by
  intro s
  cases step with
  | read step => exact ReadStep.stays step s
  | write step => exact WriteStep.stays step s
  | setPosition p => exact staysOn_setPosition s p
  | setSize n => exact staysOn_setSize s n
  | remaining => exact .refl s

/-! ### Transactions -/

/-- A stream with a transaction open on another shows that other one if the transaction is given
up. -/
theorem discard_of_below (h : t.below? = some s) : t.discard = s := by
  cases t with
  | edited under edits => exact Option.some.inj h
  | memory content cursor => cases h
  | metered left under => cases h
  | piecewise under => cases h

/-- Replaying one recorded change stays on the stream. -/
theorem apply_staysOn {change : Edit} (h : s.apply change = .ok t) : StaysOn s t := by
  cases change with
  | write offset data => exact (staysOn_setPosition s offset).trans (staysOn_put h)
  | resize size =>
    cases h
    exact staysOn_setSize s size

/-- Replaying a longer log replays the older changes first and stops at the first refusal. -/
theorem applyAll_cons (change : Edit) (older : List Edit) (s : ByteStream) :
    applyAll (change :: older) s = match applyAll older s with
      | .ok _ t => match t.apply change with
        | .ok u => .ok () u
        | .error e => .error e t
      | .error e t => .error e t := by
  rw [applyAll]
  simp only [bind, EStateM.bind]
  cases applyAll older s with
  | ok u t => rfl
  | error e t => rfl

/-- Replaying a log stays on the stream, however far it comes. -/
theorem applyAll_stays (changes : List Edit) : Stays (applyAll changes) := by
  induction changes with
  | nil => exact fun s => .refl s
  | cons change older ih =>
    intro s
    have holder := ih s
    rw [outcome, applyAll_cons]
    cases hrun : applyAll older s with
    | ok u t =>
      rw [outcome_of_ok hrun] at holder
      simp only
      cases happly : t.apply change with
      | ok t' => exact holder.trans (apply_staysOn happly)
      | error e => exact holder
    | error e t =>
      rw [outcome_of_error hrun] at holder
      exact holder

/-- On a stream kept in memory a whole log is replayed: nothing is refused. -/
theorem applyAll_buffered (changes : List Edit) (h : s.Buffered) :
    ∃ t, applyAll changes s = .ok () t := by
  induction changes with
  | nil => exact ⟨s, rfl⟩
  | cons change older ih =>
    obtain ⟨t, hrun⟩ := ih
    have hstays := applyAll_stays older s
    rw [outcome_of_ok hrun] at hstays
    have happly : ∃ u, t.apply change = .ok u := by
      cases change with
      | write offset data =>
        exact ((staysOn_setPosition t offset).buffered (hstays.buffered h)).put data
      | resize size => exact ⟨_, rfl⟩
    obtain ⟨u, happly⟩ := happly
    refine ⟨u, ?_⟩
    rw [applyAll_cons, hrun]
    simp only [happly]

/-- A commit leaves the stream below as its writes leave it. -/
theorem commit_stays (h : t.below? = some s) : StaysOn s (outcome commit t).2 := by
  -- only a transaction has something below it; its log is replayed there, whole or up to a refusal
  cases t with
  | edited under edits =>
    cases h
    have hall := applyAll_stays edits.changes s
    cases hrun : applyAll edits.changes s with
    | ok u v =>
      rw [outcome_of_ok hrun] at hall
      have hcommit : commit (.edited s edits) = .ok () (v.setPosition edits.cursor) := by
        simp only [commit, hrun]
      rw [outcome_of_ok hcommit]
      exact hall.trans (staysOn_setPosition v _)
    | error e v =>
      rw [outcome_of_error hrun] at hall
      have hcommit : commit (.edited s edits) = .error e v := by
        simp only [commit, hrun]
      rw [outcome_of_error hcommit]
      exact hall
  | memory content cursor => cases h
  | metered left under => cases h
  | piecewise under => cases h

/-- On memory, a commit succeeds. -/
theorem commit_buffered (h : t.below? = some s) (hs : s.Buffered) : ∃ u, commit t = .ok () u := by
  cases t with
  | edited under edits =>
    cases h
    obtain ⟨v, hrun⟩ := applyAll_buffered edits.changes hs
    refine ⟨v.setPosition edits.cursor, ?_⟩
    simp only [commit, hrun]
  | memory content cursor => cases h
  | metered left under => cases h
  | piecewise under => cases h

end ByteStream

end RecordLayout
