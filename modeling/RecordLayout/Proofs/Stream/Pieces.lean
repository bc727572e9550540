import Mathlib
import RecordLayout.Proofs.Stream.Consumed
import RecordLayout.Stream.Adapters

/-!
# Reading in pieces and at once

A stream that only knows how to read some bytes at once reads long requests and skips piece by piece.
Nothing of this shows as long as the bytes are there: the pieces make up the request. Where they are
not, a request reports its whole length and what was left when it was made, and both have passed the
whole pieces that were there.

Main results:

* `ReadsExactly` — what is asked of the reads of a stream; bytes, restricted bytes and seekable streams
  have such reads;
* `readInPieces_enough`, `readInPieces_short`, `skipInPieces_enough`, `skipInPieces_short` — requests and
  skips in pieces;
* `ReadsExactly.inPieces_atOnce` — in pieces as at once.
-/

namespace RecordLayout

/-- Reads give exactly the bytes that they are asked for, or they report how many are left and take none
of them. `Left s b` says that the bytes `b` are left in `s`. -/
structure ReadsExactly {σ : Type} (read : Nat → StreamM σ Bytes) (Left : σ → Bytes → Prop) : Prop where
  enough : ∀ {s b n}, Left s b → n ≤ b.length →
    ∃ t, read n s = .ok (b.take n) t ∧ Left t (b.drop n)
  short : ∀ {s b n}, Left s b → b.length < n →
    ∃ needed t, read n s = .error (.endOfStream needed b.length) t ∧ Left t b

/-! ## Whole pieces -/

/-- What is left of some bytes behind the whole pieces of a size. -/
def behindPieces (size : Nat) (b : Bytes) : Bytes := b.drop (b.length / size * size)

theorem behindPieces_of_lt {size : Nat} {b : Bytes} (h : b.length < size) :
    behindPieces size b = b := by
  rw [behindPieces, Nat.div_eq_of_lt h, Nat.zero_mul, List.drop_zero]

theorem behindPieces_drop {size : Nat} {b : Bytes} (hsize : 0 < size) (h : size ≤ b.length) :
    behindPieces size (b.drop size) = behindPieces size b := by
  rw [behindPieces, behindPieces, List.drop_drop, List.length_drop, Nat.div_eq_sub_div hsize h,
    Nat.succ_mul, Nat.add_comm]

/-! ## Requests and skips in pieces -/

section

variable {σ : Type} {read : Nat → StreamM σ Bytes} {Left : σ → Bytes → Prop}

/-- The pieces of a request that is there make it up. -/
theorem readInPieces_enough (h : ReadsExactly read Left) {total start : Nat} {s : σ} {b : Bytes}
    (hs : Left s b) (hn : total - start ≤ b.length) :
    ∃ t, readInPieces read total start s = .ok (b.take (total - start)) t ∧
      Left t (b.drop (total - start)) := by
  induction hleft : total - start using Nat.strong_induction_on generalizing start s b with
  | _ left ih =>
    subst hleft
    rw [readInPieces]
    split
    · -- everything that was asked for has been read
      rename_i hdone
      rw [Nat.sub_eq_zero_of_le hdone, List.take_zero, List.drop_zero]
      exact ⟨s, rfl, hs⟩
    · set step := min (total - start) 65536 with hstep
      -- this piece is there, as the whole request is, and the others start behind it
      obtain ⟨t, hread, ht⟩ := h.enough hs (n := step) (by omega)
      obtain ⟨t', hrest, ht'⟩ := ih (total - (start + step)) (by omega) ht
        (by rw [List.length_drop]; omega) rfl
      have hsum : total - start = step + (total - (start + step)) := by omega
      rw [List.drop_drop, ← hsum] at ht'
      refine ⟨t', ?_, ht'⟩
      rw [bind_of_ok (failingAs_ok.mpr hread), bind_of_ok hrest, hsum, List.take_add]
      rfl

/-- A request that is not there is refused as a whole, whichever piece it is that fails. -/
theorem readInPieces_short (h : ReadsExactly read Left) {total start : Nat} {s : σ} {b : Bytes}
    (hs : Left s b) (hn : b.length < total - start) :
    ∃ t, readInPieces read total start s = .error (.endOfStream total (start + b.length)) t ∧
      Left t (behindPieces 65536 b) := by
  induction hleft : total - start using Nat.strong_induction_on generalizing start s b with
  | _ left ih =>
    subst hleft
    rw [readInPieces, dif_neg (by omega)]
    set step := min (total - start) 65536 with hstep
    rcases Nat.lt_or_ge b.length step with hlt | hge
    · -- this piece is the one that fails; it has been counted up to here
      obtain ⟨needed, t, hread, ht⟩ := h.short hs hlt
      rw [behindPieces_of_lt (by omega)]
      refine ⟨t, bind_error.mpr (Or.inl ?_), ht⟩
      rw [failingAs, hread]
      rfl
    · -- a piece that is there while the request is not is a whole one
      obtain hfull : step = 65536 := by omega
      obtain ⟨t, hread, ht⟩ := h.enough hs hge
      obtain ⟨t', hrest, ht'⟩ := ih (total - (start + step)) (by omega) ht
        (by rw [List.length_drop]; omega) rfl
      rw [hfull, behindPieces_drop (by omega) (by omega)] at ht'
      refine ⟨t', ?_, ht'⟩
      rw [bind_of_ok (failingAs_ok.mpr hread)]
      refine bind_error.mpr (Or.inl ?_)
      rw [hrest, List.length_drop, show start + step + (b.length - step) = start + b.length by omega]

/-- A skip passes what is there. -/
theorem skipInPieces_enough (h : ReadsExactly read Left) {n : Nat} {s : σ} {b : Bytes}
    (hs : Left s b) (hn : n ≤ b.length) :
    ∃ t, skipInPieces read n s = .ok () t ∧ Left t (b.drop n) := by
  induction n using Nat.strong_induction_on generalizing s b with
  | _ n ih =>
    rw [skipInPieces]
    split
    · rename_i hzero
      rw [hzero, List.drop_zero]
      exact ⟨s, rfl, hs⟩
    · set step := min n 256 with hstep
      obtain ⟨t, hread, ht⟩ := h.enough hs (n := step) (by omega)
      obtain ⟨t', hrest, ht'⟩ := ih (n - step) (by omega) ht (by rw [List.length_drop]; omega)
      rw [List.drop_drop, show step + (n - step) = n by omega] at ht'
      exact ⟨t', (bind_of_ok hread).trans hrest, ht'⟩

/-- A skip past the end fails at the last piece that was begun, and with the report of this piece. -/
theorem skipInPieces_short (h : ReadsExactly read Left) {n : Nat} {s : σ} {b : Bytes}
    (hs : Left s b) (hn : b.length < n) :
    ∃ needed t, skipInPieces read n s = .error (.endOfStream needed (b.length % 256)) t ∧
      Left t (behindPieces 256 b) := by
  induction n using Nat.strong_induction_on generalizing s b with
  | _ n ih =>
    rw [skipInPieces, dif_neg (by omega)]
    set step := min n 256 with hstep
    rcases Nat.lt_or_ge b.length step with hlt | hge
    · -- unlike a request, a skip leaves the report of the piece as it is
      obtain ⟨needed, t, hread, ht⟩ := h.short hs hlt
      rw [behindPieces_of_lt (by omega), Nat.mod_eq_of_lt (by omega)]
      exact ⟨needed, t, bind_error.mpr (Or.inl hread), ht⟩
    · obtain hfull : step = 256 := by omega
      obtain ⟨t, hread, ht⟩ := h.enough hs hge
      obtain ⟨needed, t', hrest, ht'⟩ := ih (n - step) (by omega) ht
        (by rw [List.length_drop]; omega)
      have hmod : (b.drop step).length % 256 = b.length % 256 := by
        rw [List.length_drop, hfull, ← Nat.mod_eq_sub_mod (by omega)]
      rw [hmod] at hrest
      rw [hfull, behindPieces_drop (by omega) (by omega)] at ht'
      exact ⟨needed, t', (bind_of_ok hread).trans hrest, ht'⟩

end

/-! ## Streams with exact reads -/

theorem Bytes.readsExactly : ReadsExactly Bytes.takeFront (· = ·) where
  enough := by
    rintro s b n rfl hn
    exact ⟨s.drop n, if_pos hn, rfl⟩
  short := by
    rintro s b n rfl hn
    exact ⟨n, s, if_neg (Nat.not_le.mpr hn), rfl⟩

theorem ReadOnly.readsExactly :
    ReadsExactly (ByteSource.read : Nat → StreamM ReadOnly Bytes) (·.rest = ·) where
  enough := by
    rintro s b n rfl hn
    refine ⟨⟨s.rest.drop n⟩, ?_, rfl⟩
    simp only [ByteSource.read, Bytes.takeFront, if_pos hn]
  short := by
    rintro s b n rfl hn
    refine ⟨n, s, ?_, rfl⟩
    simp only [ByteSource.read, Bytes.takeFront, if_neg (Nat.not_le.mpr hn)]

/-- A seekable stream reads from where its cursor stands; behind the end there is nothing left. -/
theorem ByteStream.readsExactly :
    ReadsExactly ByteStream.take fun s b => s.Coherent ∧ s.shown.drop s.position = b where
  enough := by
    rintro s b n ⟨hs, rfl⟩ hn
    -- the bytes are shown from the cursor on, so the stream gives them, edits included
    have hshows : s.Shows ((s.shown.drop s.position).take n) := ⟨hs, List.take_prefix _ _⟩
    have htake := take_shows hshows
    rw [List.length_take, Nat.min_eq_left hn] at htake
    refine ⟨s.ahead n, htake, coherent_setPosition hs _, ?_⟩
    rw [shown_ahead, position_ahead, List.drop_drop]
  short := by
    rintro s b n ⟨hs, rfl⟩ hn
    rw [List.length_drop, ← remaining_shown hs] at hn ⊢
    exact ⟨n, s, if_neg (Nat.not_le.mpr hn), hs, rfl⟩

/-! ## In pieces and at once -/

/-- Bytes are skipped in pieces exactly if they are skipped at once. -/
theorem Bytes.skipInPieces_ok_iff (n : Nat) (front rest : Bytes) :
    skipInPieces Bytes.takeFront n front = .ok () rest ↔ ByteSource.skip n front = .ok () rest := by
  rcases Nat.lt_or_ge front.length n with hlt | hge
  · -- neither way gets past the end
    obtain ⟨needed, t, hpieces, -⟩ := skipInPieces_short Bytes.readsExactly (s := front) rfl hlt
    have honce : ByteSource.skip n front = .error (.endOfStream n front.length) front := by
      refine bind_error.mpr (Or.inl ?_)
      exact if_neg (Nat.not_le.mpr hlt)
    rw [hpieces, honce]
    exact ⟨nofun, nofun⟩
  · obtain ⟨t, hpieces, ht⟩ := skipInPieces_enough Bytes.readsExactly (s := front) rfl hge
    have honce : ByteSource.skip n front = .ok () (front.drop n) :=
      bind_of_ok (if_pos hge)
    rw [hpieces, honce, ht]

/-- A stream in memory skips in pieces exactly if it skips at once, wherever its cursor stands. -/
theorem ByteStream.skipInPieces_ok_iff (n : Nat) (content : Bytes) (cursor : Nat) (t : ByteStream) :
    skipInPieces take n (.memory content cursor) = .ok () t ↔
      ByteSource.skip n (.memory content cursor : ByteStream) = .ok () t := by
  have hcoherent : (ByteStream.memory content cursor).Coherent := trivial
  have honce : ByteSource.skip n (.memory content cursor : ByteStream) =
      advance n (.memory content cursor) := rfl
  rw [honce, advance]
  constructor
  · -- both end with the cursor moved by all of the bytes
    intro hrun
    obtain ⟨hle, rfl⟩ := skipInPieces_ok hcoherent hrun
    exact if_pos hle
  · intro hrun
    split at hrun
    · rename_i hle
      cases hrun
      exact skipInPieces_shows hcoherent hle
    · cases hrun

/-- Over any stream with exact reads, a request in pieces gives the next bytes if they are there, and
reports itself and what was left if not. A skip in pieces succeeds if the bytes are there, and passes
them; so it succeeds where the bytes and streams in memory skip at once, and ends where they do. -/
theorem ReadsExactly.inPieces_atOnce {σ : Type} [ByteSource σ] {Left : σ → Bytes → Prop}
    (h : ReadsExactly (ByteSource.read : Nat → StreamM σ Bytes) Left) {s : σ} {b : Bytes}
    (hs : Left s b) (n : Nat) :
    (n ≤ b.length → ∃ t, ByteSource.readBytes n s = .ok (b.take n) t ∧ Left t (b.drop n)) ∧
    (b.length < n → ∃ t, ByteSource.readBytes n s = .error (.endOfStream n b.length) t ∧
      Left t (behindPieces 65536 b)) ∧
    (n ≤ b.length → ∃ t, skipInPieces ByteSource.read n s = .ok () t ∧ Left t (b.drop n)) ∧
    (b.length < n → ∃ needed t,
      skipInPieces ByteSource.read n s = .error (.endOfStream needed (b.length % 256)) t ∧
      Left t (behindPieces 256 b)) ∧
    (∀ front rest : Bytes, skipInPieces ByteSource.read n front = .ok () rest ↔
      ByteSource.skip n front = .ok () rest) ∧
    ∀ (content : Bytes) (cursor : Nat) (t : ByteStream),
      skipInPieces ByteSource.read n (.memory content cursor) = .ok () t ↔
        ByteSource.skip n (.memory content cursor : ByteStream) = .ok () t := by
  have hread : ByteSource.readBytes n s = readInPieces ByteSource.read n 0 s := rfl
  refine ⟨fun hn => ?_, fun hn => ?_, skipInPieces_enough h hs, skipInPieces_short h hs, ?_, ?_⟩
  · exact readInPieces_enough h hs hn
  · have hshort : b.length < n - 0 := hn
    obtain ⟨t, hrun, ht⟩ := readInPieces_short h hs hshort
    rw [Nat.zero_add] at hrun
    exact ⟨t, hrun, ht⟩
  · exact fun front rest => Bytes.skipInPieces_ok_iff n front rest
  · exact fun content cursor t => ByteStream.skipInPieces_ok_iff n content cursor t

/-- Of ten bytes nothing is read if their length is corrupt; of three hundred, two pieces are skipped. -/
theorem ReadsExactly.inPieces_atOnce_restricted :
    (∃ t : ReadOnly, ByteSource.readBytes 18446744073709551615 (⟨List.replicate 10 7⟩ : ReadOnly) =
      .error (.endOfStream 18446744073709551615 10) t ∧ t.rest = List.replicate 10 7) ∧
    ∃ t : ReadOnly, ByteSource.skip 257 (⟨List.replicate 300 7⟩ : ReadOnly) = .ok () t ∧
      t.rest = List.replicate 43 7 := by
  have hten := ReadsExactly.inPieces_atOnce ReadOnly.readsExactly (s := ⟨List.replicate 10 7⟩) rfl
    18446744073709551615
  have hmany := ReadsExactly.inPieces_atOnce ReadOnly.readsExactly (s := ⟨List.replicate 300 7⟩) rfl 257
  obtain ⟨t, hread, ht⟩ := hten.2.1 (by decide)
  obtain ⟨u, hskip, hu⟩ := hmany.2.2.1 (by rw [List.length_replicate]; omega)
  refine ⟨⟨t, hread, ht⟩, u, hskip, ?_⟩
  rw [hu, List.drop_replicate]

end RecordLayout
