import Mathlib
import RecordLayout.Proofs.Stream.Staying

/-!
# Transactions refine plain streams

A script of transactions can be run on a plain copy of the stream instead: what an inner transaction
keeps is done on the copy at once, what it gives up never happens. Every answer, cursor and size is
the same, and so are the bytes in the end.

This goes as far as memory does. The copy has its bytes in memory, which holds less than 2^63 of them,
and a program that asks for more is stopped. A transaction only takes note of a size, so it goes on
where the copy has been stopped; `Transaction.run_not_refines` is such a run.

Main results:

* `Transaction.run_mirrors` — a transaction with everything inside it does what it does on the copy;
* `Transaction.run_staysOn` — what a transaction leaves open, whatever its steps are;
* `Transaction.run_refines` — a transaction on plain bytes reports what the copy reports, and leaves
  either what the copy holds or the bytes and the cursor it found.
-/

namespace RecordLayout

open ByteStream

/-! ## Scripts on the plain copy -/

/-- Whether an ending keeps what was done before it. -/
def Ending.keeps : Ending → Bool
  | .commit | .scope true => true
  | .drop | .scope false => false

/-- What an ending reports if no change is held back. -/
def Ending.report : Ending → EndReport
  | .commit => .committed
  | .drop => .dropped
  | .scope true => .scoped 0
  | .scope false => .failed scopeAborted

/-- A report without the number of changes that were held back. -/
def EndReport.bare : EndReport → EndReport
  | .scoped _ => .scoped 0
  | other => other

mutual

/-- A report without the numbers of changes that were held back. -/
def TransactionReport.bare : TransactionReport → TransactionReport
  | .step report _ => .step report 0
  | .nested steps ended _ => .nested (TransactionReport.bareAll steps) ended.bare 0

/-- Reports without the numbers of changes that were held back. -/
def TransactionReport.bareAll : List TransactionReport → List TransactionReport
  | [] => []
  | report :: rest => report.bare :: TransactionReport.bareAll rest

end

/-- The most bytes that memory holds. -/
def memoryLimit : Nat := 2 ^ 63 - 1

mutual

/-- Runs a transaction on a plain stream: its steps happen at once, and nothing has happened if it
is given up. There is no result if the bytes do not fit into memory. -/
def Transaction.runPlain :
    Transaction → ByteStream → Option ((List TransactionReport × EndReport) × ByteStream)
  | .mk steps ending, s =>
    (TransactionStep.runAllPlain steps s).map fun (reports, last) =>
      ((reports, ending.report), if ending.keeps then last else s)

/-- Runs the steps of a transaction on a plain stream. -/
def TransactionStep.runAllPlain :
    List TransactionStep → ByteStream → Option (List TransactionReport × ByteStream)
  | [], s => some ([], s)
  | step :: steps, s =>
    (step.runPlain s).bind fun (report, s) =>
      (TransactionStep.runAllPlain steps s).map fun (reports, last) => (report :: reports, last)

/-- Runs one step of a transaction on a plain stream. -/
def TransactionStep.runPlain :
    TransactionStep → ByteStream → Option (TransactionReport × ByteStream)
  | .step step, s =>
    let (answer, s) := outcome step.run s
    if s.size ≤ memoryLimit then some (.step ⟨answer, s.position, s.size⟩ 0, s) else none
  | .nested inner, s =>
    (inner.runPlain s).map fun ((reports, ended), s) => (.nested reports ended 0, s)

end

mutual

/-- Whether no step of a transaction writes nothing behind the end. -/
def Transaction.GapFree : Transaction → ByteStream → Prop
  | .mk steps _, s => TransactionStep.AllGapFree steps s

/-- Whether none of some steps writes nothing behind the end. -/
def TransactionStep.AllGapFree : List TransactionStep → ByteStream → Prop
  | [], _ => True
  | step :: steps, s => step.GapFree s ∧
      ∀ report s', step.runPlain s = some (report, s') → TransactionStep.AllGapFree steps s'

/-- Whether a step does not write nothing behind the end. -/
def TransactionStep.GapFree : TransactionStep → ByteStream → Prop
  | .step step, s => ¬step.FillsGap s
  | .nested inner, s => inner.GapFree s

end

/-! ### What is done on the copy -/

/-- What a script step reports and leaves is, up to held-back changes, what it does on the copy. -/
structure Agrees (s : ByteStream) (found : TransactionReport × ByteStream)
    (plain : TransactionReport × ByteStream) : Prop where
  report : found.1.bare = plain.1
  follows : Follows s found.2
  copy : found.2.copy = plain.2

mutual

/-- A transaction does what it does on the plain copy. -/
theorem Transaction.run_mirrors : ∀ (t : Transaction) {s : ByteStream} {plain}, Follows s s →
    t.GapFree s.copy → t.runPlain s.copy = some plain →
    TransactionReport.bareAll (t.run s).1.1 = plain.1.1 ∧ (t.run s).1.2.bare = plain.1.2 ∧
      Follows s (t.run s).2 ∧ (t.run s).2.copy = plain.2
  | .mk steps ending, s, _, h, hgap, hplain => by
    obtain ⟨⟨reports, last⟩, hsteps, rfl⟩ := Option.map_eq_some_iff.mp hplain
    have hbegin := follows_begin h.coherent h.buffered
    obtain ⟨hreports, hlast, hcopy⟩ := TransactionStep.runAll_mirrors steps hbegin hgap hsteps
    -- the log is replayed on the base, which shows what the copy has come to
    obtain ⟨after, hcommit, hafter, hsame⟩ := commit_copy h.buffered h.coherent hlast
    have hdiscard := discard_follows hlast
    simp only [Transaction.run]
    refine ⟨hreports, ?_⟩
    -- an ending that keeps nothing leaves the stream it began with
    cases ending with
    | commit =>
      simp only [Ending.close, hcommit]
      exact ⟨rfl, hafter, hsame.trans hcopy⟩
    | drop =>
      simp only [Ending.close, hdiscard]
      exact ⟨rfl, h, rfl⟩
    | scope succeeds =>
      cases succeeds with
      | true =>
        simp only [Ending.close, hcommit]
        exact ⟨rfl, hafter, hsame.trans hcopy⟩
      | false =>
        simp only [Ending.close, hdiscard]
        exact ⟨rfl, h, rfl⟩

/-- The steps of an open transaction do what they do on the plain copy. -/
theorem TransactionStep.runAll_mirrors : ∀ (steps : List TransactionStep) {s : ByteStream} {plain},
    Follows s s → TransactionStep.AllGapFree steps s.copy →
    TransactionStep.runAllPlain steps s.copy = some plain →
    TransactionReport.bareAll (TransactionStep.runAll steps s).1 = plain.1 ∧
      Follows s (TransactionStep.runAll steps s).2 ∧
      (TransactionStep.runAll steps s).2.copy = plain.2
  | [], _, _, h, _, hplain => by
    cases hplain
    exact ⟨rfl, h, rfl⟩
  | step :: steps, s, _, h, hgap, hplain => by
    obtain ⟨⟨report, t⟩, hstep, hrest⟩ := Option.bind_eq_some_iff.mp hplain
    obtain ⟨⟨reports, last⟩, hsteps, rfl⟩ := Option.map_eq_some_iff.mp hrest
    obtain ⟨hreport, hs', hcopy⟩ := TransactionStep.run_mirrors step h hgap.1 hstep
    have hgaps := hgap.2 _ _ hstep
    subst hcopy
    obtain ⟨hreports, hlast, hend⟩ := TransactionStep.runAll_mirrors steps hs'.self hgaps hsteps
    simp only [TransactionStep.runAll, TransactionReport.bareAll, hreport, hreports]
    exact ⟨trivial, hs'.trans hlast, hend⟩

/-- One step of an open transaction does what it does on the plain copy. -/
theorem TransactionStep.run_mirrors : ∀ (step : TransactionStep) {s : ByteStream} {plain},
    Follows s s → step.GapFree s.copy → step.runPlain s.copy = some plain →
    Agrees s (step.run s) plain
  | .step step, s, _, h, hgap, hplain => by
    obtain ⟨answer, s', hrun, hs', hcopy⟩ := step.mirrors_run h hgap
    simp only [TransactionStep.runPlain, hcopy] at hplain
    obtain ⟨-, hplain⟩ := Option.ite_none_right_eq_some.mp hplain
    cases hplain
    simp only [TransactionStep.run, hrun]
    exact ⟨by rw [TransactionReport.bare, position_copy, size_copy hs'.coherent], hs', rfl⟩
  | .nested inner, s, _, h, hgap, hplain => by
    obtain ⟨⟨⟨reports, ended⟩, t⟩, hinner, rfl⟩ := Option.map_eq_some_iff.mp hplain
    obtain ⟨hreports, hended, hs', hcopy⟩ := Transaction.run_mirrors inner h hgap hinner
    simp only [TransactionStep.run]
    exact ⟨by rw [TransactionReport.bare, hreports, hended], hs', hcopy⟩

end

/-! ### What stays open -/

/-- An ending that keeps the changes leaves the stream as the commit does, whatever it reports. -/
theorem Ending.close_of_keeps {ending : Ending} (h : ending.keeps = true) (t : ByteStream) :
    (ending.close t).2 = (outcome ByteStream.commit t).2 := by
  cases ending with
  | commit => cases hrun : ByteStream.commit t <;> simp only [close, outcome, hrun]
  | drop => cases h
  | scope succeeds =>
    cases succeeds with
    | true => cases hrun : ByteStream.commit t <;> simp only [close, outcome, hrun]
    | false => cases h

/-- Every other ending forgets the changes. -/
theorem Ending.close_of_not_keeps {ending : Ending} (h : ending.keeps = false) (t : ByteStream) :
    (ending.close t).2 = t.discard := by
  cases ending with
  | commit => cases h
  | drop => rfl
  | scope succeeds =>
    cases succeeds with
    | true => cases h
    | false => rfl

/-- The stream below a transaction is what its ending leaves of it. -/
theorem Ending.close_staysOn {s t : ByteStream} (ending : Ending) (h : t.below? = some s) :
    StaysOn s (ending.close t).2 ∧ (ending.keeps = false → (ending.close t).2 = s) := by
  have hdiscard := discard_of_below h
  cases hkeeps : ending.keeps with
  | true =>
    rw [Ending.close_of_keeps hkeeps]
    exact ⟨commit_stays h, fun hnot => by cases hnot⟩
  | false =>
    rw [Ending.close_of_not_keeps hkeeps, hdiscard]
    exact ⟨.refl s, fun _ => rfl⟩

mutual

/-- A transaction leaves the stream below open, and as it was if it is given up. -/
theorem Transaction.run_staysOn : ∀ (t : Transaction) (s : ByteStream), StaysOn s (t.run s).2
  | .mk steps ending, s => by
    have hsteps := TransactionStep.runAll_staysOn steps s.begin
    exact (ending.close_staysOn (s := s) hsteps.below).1

/-- The steps of an open transaction leave it open. -/
theorem TransactionStep.runAll_staysOn : ∀ (steps : List TransactionStep) (s : ByteStream),
    StaysOn s (TransactionStep.runAll steps s).2
  | [], s => .refl s
  | step :: steps, s =>
    (TransactionStep.run_staysOn step s).trans (TransactionStep.runAll_staysOn steps _)

/-- One step of an open transaction leaves it open. -/
theorem TransactionStep.run_staysOn : ∀ (step : TransactionStep) (s : ByteStream),
    StaysOn s (step.run s).2
  | .step step, s => StreamStep.stays step s
  | .nested inner, s => Transaction.run_staysOn inner s

end

/-! ### Transactions on plain bytes -/

/-- A transaction on plain bytes gives the answers, cursors and sizes that its steps give on a plain
copy, inner transactions included, as long as the bytes of the copy fit into memory. If it is kept, the
bytes and the cursor are the copy's then. If it is given up, they are what they were, whatever the steps
are. -/
theorem Transaction.run_refines (steps : List TransactionStep) (ending : Ending) (content : Bytes)
    (cursor : Nat) :
    let start := ByteStream.memory content cursor
    let found := (Transaction.mk steps ending).run start
    (TransactionStep.AllGapFree steps start → ∀ reports last,
      TransactionStep.runAllPlain steps start = some (reports, last) →
        TransactionReport.bareAll found.1.1 = reports ∧ found.1.2.bare = ending.report ∧
          (ending.keeps = true → found.2 = last)) ∧
    (ending.keeps = false → found.2 = start) := by
  intro start found
  have hbelow := (TransactionStep.runAll_staysOn steps start.begin).below
  refine ⟨fun hgap reports last hplain => ?_, (ending.close_staysOn (s := start) hbelow).2⟩
  have hstart : Follows start start := .refl trivial trivial
  have hrun : (Transaction.mk steps ending).runPlain start =
      some ((reports, ending.report), if ending.keeps then last else start) := by
    rw [Transaction.runPlain, hplain, Option.map_some]
  obtain ⟨hreports, hended, hafter, hcopy⟩ :=
    Transaction.run_mirrors (.mk steps ending) hstart (by rwa [Transaction.GapFree]) hrun
  refine ⟨hreports, hended, fun hkeeps => ?_⟩
  rw [if_pos hkeeps] at hcopy
  -- a stream over nothing is its own copy
  have hplain : found.2 = found.2.copy := by
    change Follows start found.2 at hafter
    generalize found.2 = last at hafter
    cases last with
    | memory bytes position => rfl
    | edited under edits => cases hafter.below
    | metered left under => exact hafter.buffered.elim
    | piecewise under => exact hafter.buffered.elim
  rw [hplain]
  exact hcopy

/-- A shrink, a write into the gap and a nested transaction that is given up. -/
theorem Transaction.run_refines_shrink_then_grow :
    let steps : List TransactionStep :=
      [.step (.setSize 1), .step (.setPosition 3), .step (.write (.bytes [7])),
        .nested (.mk [.step (.setPosition 0), .step (.write (.bytes [9, 9]))] .drop),
        .step (.setPosition 0), .step (.read (.bytes 4))]
    let start := ByteStream.memory [1, 2, 3] 0
    TransactionStep.AllGapFree steps start ∧
      (TransactionStep.runAllPlain steps start).map (·.2) = some (.memory [1, 0, 0, 7] 4) ∧
      ((Transaction.mk steps .commit).run start).2 = .memory [1, 0, 0, 7] 4 := by
  intro steps start
  have hgap : TransactionStep.AllGapFree steps start := by
    simp [steps, start, TransactionStep.AllGapFree, TransactionStep.GapFree, Transaction.GapFree,
      StreamStep.FillsGap, WriteStep.isEmpty]
  have hlast : (TransactionStep.runAllPlain steps start).map (·.2) =
      some (.memory [1, 0, 0, 7] 4) := rfl
  obtain ⟨⟨reports, last⟩, hplain, heq⟩ := Option.map_eq_some_iff.mp hlast
  have hkept := ((Transaction.run_refines steps .commit [1, 2, 3] 0).1 hgap reports last hplain).2.2 rfl
  exact ⟨hgap, hlast, hkept.trans heq⟩

/-- Memory does not grow beyond its limit. -/
theorem TransactionStep.runAllPlain_setSize {n : Nat} (h : memoryLimit < n) (content : Bytes)
    (cursor : Nat) :
    TransactionStep.runAllPlain [.step (.setSize n)] (.memory content cursor) = none := by
  have hsize : ((ByteStream.memory content cursor).setSize n).size = n := by
    simp [setSize, ByteStream.size, resized]
    omega
  have hstep : TransactionStep.runPlain (.step (.setSize n)) (.memory content cursor) = none := by
    refine if_neg ?_
    show ¬((ByteStream.memory content cursor).setSize n).size ≤ memoryLimit
    rw [hsize]
    exact Nat.not_le_of_lt h
  rw [TransactionStep.runAllPlain, hstep, Option.bind_none]

/-- A transaction takes a size that memory does not have, and goes on where the copy is stopped. -/
theorem Transaction.run_not_refines :
    ¬∀ (steps : List TransactionStep) (ending : Ending) (content : Bytes) (cursor : Nat),
      TransactionStep.AllGapFree steps (.memory content cursor) → ∃ last,
        TransactionStep.runAllPlain steps (.memory content cursor) = some
          (TransactionReport.bareAll
            ((Transaction.mk steps ending).run (.memory content cursor)).1.1, last) := by
  intro hall
  have hgap : TransactionStep.AllGapFree [.step (.setSize (2 ^ 63))] (.memory [] 0) :=
    ⟨not_false, fun _ _ _ => trivial⟩
  obtain ⟨last, hplain⟩ := hall _ .drop [] 0 hgap
  rw [TransactionStep.runAllPlain_setSize (by decide)] at hplain
  exact Option.some_ne_none _ hplain.symm

end RecordLayout
