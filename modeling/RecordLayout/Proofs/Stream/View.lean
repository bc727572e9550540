import Mathlib
import RecordLayout.Stream.Basic

/-!
# What a stream shows

Seen from outside, every stream is a byte string with a cursor. `ByteStream.shown` computes the byte
string: a transaction shows the stream below with its changes applied in order. A stream is
`Coherent` if its transactions keep the size that belongs to what they show.

Main results:

* `peek_shown` — a window that lies inside a coherent stream is that part of what it shows;
* `put_shown` — a write splices its bytes into what the stream shows;
* `commit_shown` — after a commit the stream below shows what the transaction showed.
-/

namespace RecordLayout

/-! ## Bytes by position -/

/-- The byte at a position; zero where there is none. -/
def byteAt (bytes : Bytes) (i : Nat) : UInt8 := bytes.getD i 0

/-- Past the end every byte shows as zero. -/
theorem byteAt_of_length_le {bytes : Bytes} {i : Nat} (h : bytes.length ≤ i) :
    byteAt bytes i = 0 := by
  rw [byteAt, List.getD_eq_getElem?_getD, List.getElem?_eq_none h, Option.getD_none]

/-- Within the bytes, `byteAt` is indexing. -/
theorem byteAt_of_lt {bytes : Bytes} {i : Nat} (h : i < bytes.length) :
    byteAt bytes i = bytes[i] := by
  rw [byteAt, List.getD_eq_getElem?_getD, List.getElem?_eq_getElem h, Option.getD_some]

/-- Two byte strings of one length are equal if they agree at every position. -/
theorem eq_of_byteAt {a b : Bytes} (hlen : a.length = b.length)
    (h : ∀ i < a.length, byteAt a i = byteAt b i) : a = b := by
  apply List.ext_getElem hlen
  intro i ha hb
  have hi := h i ha
  rwa [byteAt_of_lt ha, byteAt_of_lt hb] at hi

/-- A byte of a concatenation comes from the part its index falls in. -/
theorem byteAt_append (a b : Bytes) (i : Nat) :
    byteAt (a ++ b) i = if i < a.length then byteAt a i else byteAt b (i - a.length) := by
  simp only [byteAt, List.getD_eq_getElem?_getD, List.getElem?_append]
  split <;> rfl

/-- A prefix keeps the bytes below its length and shows zeros above. -/
theorem byteAt_take (bytes : Bytes) (n i : Nat) :
    byteAt (bytes.take n) i = if i < n then byteAt bytes i else 0 := by
  simp only [byteAt, List.getD_eq_getElem?_getD, List.getElem?_take]
  split <;> rfl

/-- Dropping a prefix shifts the indices. -/
theorem byteAt_drop (bytes : Bytes) (n i : Nat) :
    byteAt (bytes.drop n) i = byteAt bytes (n + i) := by
  simp [byteAt]

/-- A run of zeros shows zeros everywhere. -/
theorem byteAt_zeros (n i : Nat) : byteAt (List.replicate n 0) i = 0 := by
  simp only [byteAt, List.getD_eq_getElem?_getD, List.getElem?_replicate]
  split <;> rfl

/-! ## Resized and spliced bytes -/

/-- Resizing gives exactly the size asked for. -/
@[simp] theorem length_resized (bytes : Bytes) (size : Nat) :
    (resized bytes size).length = size := by
  simp [resized]
  omega

/-- Resizing keeps the bytes below the new size and shows zeros above. -/
theorem byteAt_resized (bytes : Bytes) (size i : Nat) :
    byteAt (resized bytes size) i = if i < size then byteAt bytes i else 0 := by
  simp only [resized, byteAt_append, byteAt_take, byteAt_zeros, List.length_take]
  by_cases hi : i < size
  · by_cases hb : i < bytes.length
    · simp [hi, hb]
    · simp [hi, hb, byteAt_of_length_le (Nat.le_of_not_lt hb)]
  · simp [hi]

/-- Splicing grows the bytes where the data reaches past their end. -/
theorem length_spliced (bytes : Bytes) (offset : Nat) (data : Bytes) :
    (spliced bytes offset data).length = max bytes.length (offset + data.length) := by
  simp [spliced]
  omega

/-- A spliced byte is one of the data within its range and the old one elsewhere. -/
theorem byteAt_spliced (bytes : Bytes) (offset : Nat) (data : Bytes) (i : Nat) :
    byteAt (spliced bytes offset data) i =
      if offset ≤ i ∧ i < offset + data.length then byteAt data (i - offset)
      else byteAt bytes i := by
  have hlen : (bytes.take offset ++ List.replicate (offset - bytes.length) 0).length = offset := by
    simp
    omega
  rw [spliced, byteAt_append, byteAt_append]
  rw [List.length_append, hlen]
  -- the data may start past the end, so the gap in between is a case of its own
  by_cases hlow : i < offset
  · rw [if_pos (by omega), if_pos hlow, if_neg (by omega), byteAt_append, byteAt_take,
      byteAt_zeros, List.length_take]
    by_cases hb : i < bytes.length
    · simp [hlow, hb]
    · simp [hlow, hb, byteAt_of_length_le (Nat.le_of_not_lt hb)]
  · by_cases hhigh : i < offset + data.length
    · rw [if_pos hhigh, if_neg hlow, if_pos ⟨by omega, hhigh⟩]
    · rw [if_neg hhigh, if_neg (by omega), byteAt_drop]
      congr 1
      omega

/-- Splicing in nothing changes nothing, unless it fills a gap. -/
theorem spliced_nil {bytes : Bytes} {offset : Nat} (h : offset ≤ bytes.length) :
    spliced bytes offset [] = bytes := by
  apply eq_of_byteAt
  · rw [length_spliced]
    simpa using h
  · intro i _
    rw [byteAt_spliced, if_neg (by simp)]

/-- Two splices in a row are one. -/
theorem spliced_spliced (bytes : Bytes) (offset : Nat) (first second : Bytes) :
    spliced (spliced bytes offset first) (offset + first.length) second =
      spliced bytes offset (first ++ second) := by
  apply eq_of_byteAt
  · simp only [length_spliced, List.length_append]
    omega
  · intro i _
    simp only [byteAt_spliced, byteAt_append, List.length_append]
    by_cases hlow : i < offset
    · rw [if_neg (by omega), if_neg (by omega), if_neg (by omega)]
    · by_cases hmid : i < offset + first.length
      · rw [if_neg (by omega), if_pos (by omega), if_pos (by omega), if_pos (by omega)]
      · by_cases hhigh : i < offset + first.length + second.length
        · rw [if_pos (by omega), if_pos (by omega), if_neg (by omega)]
          congr 1
          omega
        · rw [if_neg (by omega), if_neg (by omega), if_neg (by omega)]

/-- Splicing at the end appends. -/
theorem spliced_length (bytes data : Bytes) : spliced bytes bytes.length data = bytes ++ data := by
  simp [spliced]

/-! ## Changes -/

namespace Edit

/-- What a change makes of the whole byte string. -/
def onBytes (change : Edit) (bytes : Bytes) : Bytes :=
  match change with
  | .write offset data => spliced bytes offset data
  | .resize size => resized bytes size

/-- What a change makes of the byte at a position. -/
def onByte (i : Nat) (change : Edit) (byte : UInt8) : UInt8 :=
  match change with
  | .write offset data =>
    if offset ≤ i ∧ i < offset + data.length then byteAt data (i - offset) else byte
  | .resize size => if i < size then byte else 0

/-- Whether a change does something even behind the end of the bytes. -/
def Solid : Edit → Prop
  | .write _ data => data ≠ []
  | .resize _ => True

/-- On whole contents a change acts byte by byte. -/
theorem byteAt_onBytes (change : Edit) (bytes : Bytes) (i : Nat) :
    byteAt (change.onBytes bytes) i = change.onByte i (byteAt bytes i) := by
  cases change with
  | write offset data => exact byteAt_spliced bytes offset data i
  | resize size => exact byteAt_resized bytes size i

/-- A change does not alter the length of the window it is seen through. -/
@[simp] theorem length_onWindow (start : Nat) (change : Edit) (window : Bytes) :
    (change.onWindow start window).length = window.length := by
  cases change with
  | write offset data =>
    simp only [onWindow]
    split
    · simp only [List.length_append, List.length_take, List.length_drop]
      omega
    · rfl
  | resize size => exact length_resized _ _

/-- Seen through a window, a change acts on each byte at its place in the stream. -/
theorem byteAt_onWindow (start : Nat) (change : Edit) (window : Bytes) {k : Nat}
    (hk : k < window.length) :
    byteAt (change.onWindow start window) k = change.onByte (start + k) (byteAt window k) := by
  -- a resize clears what lies past its limit, a write lays its data over the overlap of both ranges
  cases change with
  | write offset data =>
    simp only [onWindow, onByte]
    by_cases hmeet : max start offset < min (start + window.length) (offset + data.length)
    · -- the change meets the window in the bytes from `max start offset` on
      rw [if_pos hmeet]
      have hlow : (window.take (max start offset - start)).length = max start offset - start := by
        rw [List.length_take]
        omega
      have hmid : ((data.drop (max start offset - offset)).take
          (min (start + window.length) (offset + data.length) - max start offset)).length =
            min (start + window.length) (offset + data.length) - max start offset := by
        rw [List.length_take, List.length_drop]
        omega
      simp only [byteAt_append, List.length_append, hlow, hmid, byteAt_take, byteAt_drop]
      by_cases hin : offset ≤ start + k ∧ start + k < offset + data.length
      · rw [if_pos hin, if_pos (by omega), if_neg (by omega), if_pos (by omega)]
        congr 1
        omega
      · rw [if_neg hin]
        by_cases hbefore : k < max start offset - start
        · rw [if_pos (by omega), if_pos hbefore, if_pos hbefore]
        · rw [if_neg (by omega)]
          congr 1
          omega
    · rw [if_neg hmeet, if_neg (by omega)]
  | resize size =>
    simp only [onWindow, onByte, byteAt_resized, byteAt_take]
    rw [if_pos hk]
    by_cases hs : start + k < size
    · rw [if_pos hs, if_pos (by omega)]
    · rw [if_neg hs, if_neg (by omega)]

/-- A change leaves a byte that some resize has cut off independent of what it was before. -/
theorem foldr_onByte_cut {i size : Nat} {changes : List Edit} (hmem : Edit.resize size ∈ changes)
    (hcut : size ≤ i) (a b : UInt8) :
    changes.foldr (Edit.onByte i) a = changes.foldr (Edit.onByte i) b := by
  induction changes with
  | nil => cases hmem
  | cons change older ih =>
    simp only [List.foldr_cons]
    rcases List.mem_cons.mp hmem with rfl | hold
    · simp [onByte, Nat.not_lt.mpr hcut]
    · rw [ih hold]

end Edit

/-! ## The window of a transaction -/

namespace Edits

/-- What the changes make of the byte string below. -/
def onto (e : Edits) (bytes : Bytes) : Bytes := e.changes.foldr Edit.onBytes bytes

/-- A log of changes acts byte by byte on whole contents. -/
theorem byteAt_foldr_onBytes (changes : List Edit) (bytes : Bytes) (i : Nat) :
    byteAt (changes.foldr Edit.onBytes bytes) i =
      changes.foldr (Edit.onByte i) (byteAt bytes i) := by
  induction changes with
  | nil => rfl
  | cons change older ih => simp only [List.foldr_cons, Edit.byteAt_onBytes, ih]

/-- A log of changes does not alter the length of the window. -/
theorem length_foldr_onWindow (start : Nat) (changes : List Edit) (window : Bytes) :
    (changes.foldr (Edit.onWindow start) window).length = window.length := by
  induction changes with
  | nil => rfl
  | cons change older ih => simp only [List.foldr_cons, Edit.length_onWindow, ih]

/-- A log of changes acts byte by byte through a window. -/
theorem byteAt_foldr_onWindow (start : Nat) (changes : List Edit) (window : Bytes) {k : Nat}
    (hk : k < window.length) :
    byteAt (changes.foldr (Edit.onWindow start) window) k =
      changes.foldr (Edit.onByte (start + k)) (byteAt window k) := by
  induction changes with
  | nil => rfl
  | cons change older ih =>
    simp only [List.foldr_cons]
    rw [Edit.byteAt_onWindow _ _ _ (by rwa [length_foldr_onWindow]), ih]

/-- A position is visible in the stream below unless it is behind its end or cut off. -/
theorem le_of_visible_le {i : Nat} (limits : List Nat) {size : Nat}
    (h : limits.foldl min size ≤ i) : size ≤ i ∨ ∃ limit ∈ limits, limit ≤ i := by
  induction limits generalizing size with
  | nil => exact Or.inl h
  | cons limit rest ih =>
    rcases ih h with hmin | ⟨other, hmem, hle⟩
    · rcases Nat.le_total size limit with hle | hle
      · exact Or.inl (by rwa [Nat.min_eq_left hle] at hmin)
      · exact Or.inr ⟨limit, List.mem_cons_self, by rwa [Nat.min_eq_right hle] at hmin⟩
    · exact Or.inr ⟨other, List.mem_cons_of_mem _ hmem, hle⟩

/-- A limit in the log is there because of a resize. -/
theorem resize_mem_of_limit_mem {changes : List Edit} {limit : Nat}
    (h : limit ∈ changes.filterMap Edit.limit) : Edit.resize limit ∈ changes := by
  obtain ⟨change, hmem, heq⟩ := List.mem_filterMap.mp h
  cases change with
  | write offset data => cases heq
  | resize size =>
    cases heq
    exact hmem

/-- No more of the base stream is visible than there is. -/
theorem visible_le (e : Edits) (size : Nat) : e.visible size ≤ size := by
  simp only [visible]
  generalize e.changes.filterMap Edit.limit = limits
  induction limits generalizing size with
  | nil => exact Nat.le_refl _
  | cons limit rest ih => exact Nat.le_trans (ih _) (Nat.min_le_left _ _)

/-- A view is as long as asked for. -/
@[simp] theorem length_view (e : Edits) (size : Nat) (below : Nat → Nat → Bytes) (start n : Nat) :
    (e.view size below start n).length = n := by
  simp only [view, length_foldr_onWindow, length_resized]

/-- The window of a transaction, byte by byte, if the stream below is seen as it is. -/
theorem byteAt_view (e : Edits) (bytes : Bytes) (below : Nat → Nat → Bytes) (start n : Nat)
    (hbelow : ∀ first m, first + m ≤ bytes.length → below first m = (bytes.drop first).take m)
    {k : Nat} (hk : k < n) :
    byteAt (e.view bytes.length below start n) k = byteAt (e.onto bytes) (start + k) := by
  have hvis := e.visible_le bytes.length
  simp only [view, onto, byteAt_foldr_onBytes]
  rw [byteAt_foldr_onWindow _ _ _ (by rwa [length_resized]), byteAt_resized, if_pos hk]
  by_cases hseen : start + k < e.visible bytes.length
  · -- the byte comes from the stream below
    rw [if_pos (by omega), hbelow _ _ (by omega), byteAt_take, if_pos (by omega), byteAt_drop]
  · -- the byte was never there, or a resize has cut it off
    rcases le_of_visible_le _ (Nat.le_of_not_lt hseen) with hend | ⟨limit, hmem, hle⟩
    · congr 1
      rw [byteAt_of_length_le hend]
      split
      · rw [hbelow _ _ (by omega), byteAt_take, byteAt_drop]
        split
        · exact byteAt_of_length_le hend
        · rfl
      · exact byteAt_of_length_le (Nat.zero_le _)
    · exact Edit.foldr_onByte_cut (resize_mem_of_limit_mem hmem) hle _ _

end Edits

/-! ## Streams as bytes with a cursor -/

namespace ByteStream

/-- The bytes that a stream shows, from its front to its end. -/
def shown : ByteStream → Bytes
  | .memory content _ => content
  | .edited under edits => edits.onto under.shown
  | .metered _ under => under.shown
  | .piecewise under => under.shown

/-- Every transaction keeps the size of what it shows and no change that does nothing. -/
def Coherent : ByteStream → Prop
  | .memory _ _ => True
  | .edited under edits =>
    edits.size = (edits.onto under.shown).length ∧ (∀ change ∈ edits.changes, change.Solid) ∧
      under.Coherent
  | .metered _ under => under.Coherent
  | .piecewise under => under.Coherent

/-- The size reported is the number of bytes shown. -/
theorem size_shown {s : ByteStream} (h : s.Coherent) : s.size = s.shown.length := by
  induction s with
  | memory content cursor => rfl
  | edited under edits _ => exact h.1
  | metered left under ih => exact ih h
  | piecewise under ih => exact ih h

/-- What remains is counted from the cursor to the end of the bytes shown. -/
theorem remaining_shown {s : ByteStream} (h : s.Coherent) :
    s.remaining = s.shown.length - s.position := by
  rw [remaining, size_shown h]

/-- A window inside a stream is that part of what the stream shows. -/
theorem peek_shown {s : ByteStream} (h : s.Coherent) {start n : Nat}
    (hin : n = 0 ∨ start + n ≤ s.shown.length) :
    s.peek start n = (s.shown.drop start).take n := by
  induction s generalizing start n with
  | memory content cursor => rfl
  | edited under edits ih =>
    obtain ⟨hsize, -, hunder⟩ := h
    simp only [peek, shown] at hin ⊢
    rcases hin with rfl | hin
    · rw [List.take_zero]
      exact List.eq_nil_of_length_eq_zero (Edits.length_view _ _ _ _ _)
    have hlen : ((List.drop start (edits.onto under.shown)).take n).length = n := by
      rw [List.length_take, List.length_drop]
      omega
    apply eq_of_byteAt
    · rw [Edits.length_view, hlen]
    · intro k hk
      rw [Edits.length_view] at hk
      rw [size_shown hunder, Edits.byteAt_view edits under.shown under.peek start n
        (fun first m hm => ih hunder (Or.inr hm)) hk, byteAt_take, if_pos hk, byteAt_drop]
  | metered left under ih => exact ih h hin
  | piecewise under ih => exact ih h hin

/-- The content read out is what is shown. -/
theorem content_shown {s : ByteStream} (h : s.Coherent) : s.content = s.shown := by
  rw [content, peek_shown h (Or.inr (by rw [size_shown h]; omega)), size_shown h]
  simp

/-- Moving the cursor does not change what is shown. -/
@[simp] theorem shown_setPosition (s : ByteStream) (p : Nat) :
    (s.setPosition p).shown = s.shown := by
  induction s with
  | memory content cursor => rfl
  | edited under edits _ => rfl
  | metered left under ih => exact ih
  | piecewise under ih => exact ih

/-- The cursor goes where it is set. -/
@[simp] theorem position_setPosition (s : ByteStream) (p : Nat) :
    (s.setPosition p).position = p := by
  induction s with
  | memory content cursor => rfl
  | edited under edits _ => rfl
  | metered left under ih => exact ih
  | piecewise under ih => exact ih

/-- Moving the cursor keeps a stream coherent. -/
theorem coherent_setPosition {s : ByteStream} (h : s.Coherent) (p : Nat) :
    (s.setPosition p).Coherent := by
  induction s with
  | memory content cursor => trivial
  | edited under edits _ => exact h
  | metered left under ih => exact ih h
  | piecewise under ih => exact ih h

/-- Setting the size resizes what is shown. -/
@[simp] theorem shown_setSize (s : ByteStream) (n : Nat) :
    (s.setSize n).shown = resized s.shown n := by
  induction s with
  | memory content cursor => rfl
  | edited under edits _ => rfl
  | metered left under ih => exact ih
  | piecewise under ih => exact ih

/-- Setting the size leaves the cursor. -/
@[simp] theorem position_setSize (s : ByteStream) (n : Nat) :
    (s.setSize n).position = s.position := by
  induction s with
  | memory content cursor => rfl
  | edited under edits _ => rfl
  | metered left under ih => exact ih
  | piecewise under ih => exact ih

/-- Setting the size keeps a stream coherent. -/
theorem coherent_setSize {s : ByteStream} (h : s.Coherent) (n : Nat) :
    (s.setSize n).Coherent := by
  induction s with
  | memory content cursor => trivial
  | edited under edits _ =>
    refine ⟨(length_resized _ _).symm, ?_, h.2.2⟩
    intro change hmem
    rcases List.mem_cons.mp hmem with rfl | hold
    · trivial
    · exact h.2.1 change hold
  | metered left under ih => exact ih h
  | piecewise under ih => exact ih h

/-! ## Writing -/

/-- A mapped outcome is good only where the outcome was. -/
theorem map_ok {ε α β : Type} {x : Except ε α} {f : α → β} {b : β} (h : x.map f = .ok b) :
    ∃ a, x = .ok a ∧ f a = b := by
  cases x with
  | error e => cases h
  | ok a => exact ⟨a, rfl, Except.ok.inj h⟩

/-- A held-back write splices its bytes into what the transaction shows. -/
theorem onto_write {e : Edits} {data : Bytes} (bytes : Bytes) (hdata : data ≠ []) :
    (e.write data).onto bytes = spliced (e.onto bytes) e.cursor data := by
  have hempty : data.isEmpty = false := by simpa using hdata
  obtain ⟨changes, cursor, size⟩ := e
  simp only [Edits.write, hempty, Bool.false_eq_true, if_false, Edits.onto]
  split
  · rename_i offset held older
    split
    · rename_i hjoin
      simp only [List.foldr_cons, Edit.onBytes, ← hjoin, spliced_spliced]
    · rfl
  · rfl

/-- Joining two writes keeps the changes solid. -/
theorem solid_write {e : Edits} {data : Bytes} (hdata : data ≠ [])
    (h : ∀ change ∈ e.changes, change.Solid) : ∀ change ∈ (e.write data).changes, change.Solid := by
  have hempty : data.isEmpty = false := by simpa using hdata
  obtain ⟨changes, cursor, size⟩ := e
  simp only [Edits.write, hempty, Bool.false_eq_true, if_false]
  intro change hmem
  split at hmem
  · rename_i offset held older
    split at hmem
    · rcases List.mem_cons.mp hmem with rfl | hold
      · simpa [Edit.Solid] using fun _ => hdata
      · exact h change (List.mem_cons_of_mem _ hold)
    · rcases List.mem_cons.mp hmem with rfl | hold
      · exact hdata
      · exact h change hold
  · rcases List.mem_cons.mp hmem with rfl | hold
    · exact hdata
    · exact h change hold

/-- The cursor moves past the bytes that are put. -/
theorem position_put {b b' : ByteStream} {data : Bytes} (h : b.put data = .ok b') :
    b'.position = b.position + data.length := by
  -- wrapped streams move as the stream below them does
  induction b generalizing b' with
  | memory content cursor =>
    cases h
    rfl
  | edited under edits =>
    cases h
    show (edits.write data).cursor = edits.cursor + data.length
    rw [Edits.write]
    split
    · rename_i hempty
      rw [List.isEmpty_iff.mp hempty]
      rfl
    · rfl
  | metered left under ih =>
    rw [put] at h
    split at h
    · cases h
    · obtain ⟨under', hput, rfl⟩ := map_ok h
      have hmoved := ih hput
      exact hmoved
  | piecewise under ih =>
    rw [put] at h
    obtain ⟨under', hput, rfl⟩ := map_ok h
    have hmoved := ih hput
    exact hmoved

/-- A write splices its bytes into what the stream shows and moves the cursor past them. An empty
write must not stand behind the end, where it would fill the gap in memory but not in a
transaction. -/
theorem put_shown {s s' : ByteStream} {data : Bytes} (h : s.Coherent)
    (hgap : data ≠ [] ∨ s.position ≤ s.shown.length) (hput : s.put data = .ok s') :
    s'.shown = spliced s.shown s.position data ∧ s'.position = s.position + data.length ∧
      s'.Coherent := by
  induction s generalizing s' with
  | memory content cursor =>
    cases hput
    exact ⟨rfl, rfl, trivial⟩
  | edited under edits _ =>
    cases hput
    simp only [position, shown] at hgap ⊢
    -- an empty write records nothing, and on the copy it changes nothing either as long as it is
    -- not past the end
    by_cases hdata : data = []
    · subst hdata
      have hin := hgap.resolve_left (by simp)
      refine ⟨(spliced_nil hin).symm, rfl, ?_⟩
      exact h
    · have hempty : data.isEmpty = false := by simpa using hdata
      refine ⟨onto_write _ hdata, by simp [Edits.write, hempty], ?_, solid_write hdata h.2.1, h.2.2⟩
      rw [onto_write _ hdata, length_spliced, ← h.1]
      simp [Edits.write, hempty]
  | metered left under ih =>
    simp only [put] at hput
    split at hput
    · cases hput
    · obtain ⟨under', hunder, rfl⟩ := map_ok hput
      have hbelow := ih h hgap hunder
      exact hbelow
  | piecewise under ih =>
    obtain ⟨under', hunder, rfl⟩ := map_ok hput
    have hbelow := ih h hgap hunder
    exact hbelow

/-! ## Transactions -/

@[simp] theorem shown_begin (s : ByteStream) : s.begin.shown = s.shown := rfl

@[simp] theorem position_begin (s : ByteStream) : s.begin.position = s.position := rfl

/-- Opening a transaction keeps a stream coherent. -/
theorem coherent_begin {s : ByteStream} (h : s.Coherent) : s.begin.Coherent :=
  ⟨size_shown h, fun _ hmem => absurd hmem List.not_mem_nil, h⟩

/-- Applying a held-back change to a stream changes what it shows by that change. -/
theorem apply_shown {s s' : ByteStream} {change : Edit} (h : s.Coherent) (hsolid : change.Solid)
    (happly : s.apply change = .ok s') : s'.shown = change.onBytes s.shown ∧ s'.Coherent := by
  cases change with
  | write offset data =>
    obtain ⟨hshown, -, hcoh⟩ := put_shown (coherent_setPosition h offset) (Or.inl hsolid) happly
    rw [shown_setPosition, position_setPosition] at hshown
    exact ⟨hshown, hcoh⟩
  | resize size =>
    cases happly
    exact ⟨shown_setSize s size, coherent_setSize h size⟩

/-- Replaying a log on the base shows what the log makes of the base's bytes. -/
theorem applyAll_shown {s s' : ByteStream} {changes : List Edit} (h : s.Coherent)
    (hsolid : ∀ change ∈ changes, change.Solid) (happly : applyAll changes s = .ok () s') :
    s'.shown = changes.foldr Edit.onBytes s.shown ∧ s'.Coherent := by
  -- the log holds the newest change first, so the induction replays the older ones before its head
  induction changes generalizing s' with
  | nil =>
    cases happly
    exact ⟨rfl, h⟩
  | cons change older ih =>
    simp only [applyAll, bind, EStateM.bind] at happly
    cases hold : applyAll older s with
    | error e t => simp [hold] at happly
    | ok a t =>
      obtain ⟨hshown, hcoh⟩ := ih (fun c hc => hsolid c (List.mem_cons_of_mem _ hc)) hold
      simp only [hold] at happly
      cases hlast : t.apply change with
      | error e => simp [hlast] at happly
      | ok u =>
        simp only [hlast, EStateM.Result.ok.injEq, true_and] at happly
        subst happly
        rw [List.foldr_cons, ← hshown]
        exact apply_shown hcoh (hsolid change List.mem_cons_self) hlast

/-- After a commit the stream below shows what the transaction showed. -/
theorem commit_shown {s s' : ByteStream} (h : s.Coherent) (hcommit : commit s = .ok () s') :
    s'.shown = s.shown ∧ s'.position = s.position ∧ s'.Coherent := by
  -- only a transaction has a log; on any other stream a commit does nothing
  cases s with
  | edited under edits =>
    simp only [commit] at hcommit
    cases happly : applyAll edits.changes under with
    | error e t => simp [happly] at hcommit
    | ok a t =>
      simp only [happly, EStateM.Result.ok.injEq, true_and] at hcommit
      subst hcommit
      obtain ⟨hshown, hcoh⟩ := applyAll_shown h.2.2 h.2.1 happly
      exact ⟨by rw [shown_setPosition, hshown]; rfl, position_setPosition _ _,
        coherent_setPosition hcoh _⟩
  | memory content cursor =>
    cases hcommit
    exact ⟨rfl, rfl, h⟩
  | metered left under =>
    cases hcommit
    exact ⟨rfl, rfl, h⟩
  | piecewise under =>
    cases hcommit
    exact ⟨rfl, rfl, h⟩

end ByteStream

end RecordLayout
