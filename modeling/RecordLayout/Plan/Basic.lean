import RecordLayout.Digest.Blake3
import RecordLayout.Layout.Basic
import RecordLayout.Reach

/-!
# Access plans

A plan says which fields of a layout must be read or written to get at some of them. Writing a
field touches the fields it needs, the fields that need it, the fields derived from it or that it is
derived from, and, if its size can change, everything after it. Reading a field takes the fields it
needs and, so that the others can be skipped, the fields that decide their sizes.

* `Layout.writeClosure`, `Layout.readClosure` — the places that one field takes with it;
* `Plan` — a request with the fields to write and to read;
* `Plan.fingerprint` — a number that stands for both sets.
-/

namespace RecordLayout

/-! ## Neighbours in a layout -/

namespace Layout

/-- The places of some slots. -/
def places (l : Layout) (slots : List Nat) : List Nat := slots.filterMap l.place?

/-- The field at a place. -/
def at? (l : Layout) (place : Nat) : Option BoundField := l.fields[place]?

/-- The places of the fields that the field at a place needs. -/
def needed (l : Layout) (place : Nat) : List Nat :=
  match l.at? place with
  | some f => l.places f.needs
  | none => []

/-- The places of the fields that the field at a place is derived from. -/
def sourcesOf (l : Layout) (place : Nat) : List Nat :=
  match (l.at? place).bind (·.derivation) with
  | some d => l.places d.sources
  | none => []

/-- All places in order. -/
def allPlaces (l : Layout) : List Nat := List.range l.fields.length

/-- The places of the fields that need the field at a place. -/
def dependents (l : Layout) (place : Nat) : List Nat :=
  l.allPlaces.filter fun other => (l.needed other).contains place

/-- The places of the fields that are derived from the field at a place. -/
def derivedFrom (l : Layout) (place : Nat) : List Nat :=
  l.allPlaces.filter fun other => (l.sourcesOf other).contains place

/-- Whether the size of the field at a place can change. -/
def varies (l : Layout) (place : Nat) : Bool :=
  match l.at? place with
  | some f => !f.size.isFixed
  | none => false

/-- The place of the field that decides the size of the field at a place. -/
def governorOf (l : Layout) (place : Nat) : Option Nat :=
  ((l.at? place).bind BoundField.governor?).bind l.place?

/-- What writing the field at a place touches directly. -/
def touched (l : Layout) (place : Nat) : List Nat :=
  l.needed place ++ l.dependents place ++ l.derivedFrom place ++ l.sourcesOf place
    ++ if l.varies place then l.allPlaces.filter (place < ·) else []

/-- The places that some fields reach, in order. -/
def closure (l : Layout) (next : Nat → List Nat) (starts : List Nat) : List Nat :=
  let reached := reach next (l.fields.length + 1) [] starts
  l.allPlaces.filter reached.contains

/-- The places that are written together with one. -/
def writeClosure (l : Layout) (place : Nat) : List Nat := l.closure l.touched [place]

/-- Goes over places in a row. A place that is not read will be skipped, and the field that decides
its size must be read for that; `fresh` are those that were found so far. -/
def promote (l : Layout) (seen fresh : List Nat) : List Nat → List Nat
  | [] => fresh
  | place :: rest =>
    if (seen ++ fresh).contains place then l.promote seen fresh rest
    else match l.governorOf place with
      | some governor =>
        if (seen ++ fresh).contains governor then l.promote seen fresh rest
        else l.promote seen (fresh ++ [governor]) rest
      | none => l.promote seen fresh rest

/-- The places that are read if those in a queue are: all that they need, then the governors of what
is skipped, and so on until nothing changes. Every turn but the last one finds a place. -/
def readTurns (l : Layout) : Nat → List Nat → List Nat → List Nat
  | 0, seen, _ => seen
  | turns + 1, seen, queue =>
    let reached := reach l.needed (l.fields.length + 1) seen queue
    let fresh := l.promote reached [] l.allPlaces
    if fresh.isEmpty then reached else l.readTurns turns reached fresh

/-- The places that are read together with one. -/
def readClosure (l : Layout) (place : Nat) : List Nat :=
  l.allPlaces.filter (l.readTurns (l.fields.length + 1) [] [place]).contains

end Layout

/-! ## Plans -/

/-- What a plan was asked for, as places in the layout. -/
inductive PlanRequest where
  | full
  | one (place : Nat)
  | several (places : List Nat)
  deriving DecidableEq, Repr

/-- The fields to read and to write in order to get at some fields of a layout. -/
structure Plan where
  layout : LayoutKey
  request : PlanRequest
  requested : List BoundField
  write : List BoundField
  read : List BoundField
  /-- Whether a write touches every field. -/
  fullWrite : Bool
  /-- Whether a read takes every field. -/
  fullRead : Bool
  deriving DecidableEq, Repr

/-- A number as sixteen hexadecimal digits. -/
def hexDigits16 (n : Nat) : String :=
  let digits := Nat.toDigits 16 n
  String.ofList (List.replicate (16 - digits.length) '0' ++ digits)

namespace Plan

/-- The plan of a request that takes the fields at the given places. -/
def ofPlaces (l : Layout) (request : PlanRequest) (requested write read : List Nat) : Plan :=
  let pick (places : List Nat) : List BoundField := places.filterMap l.at?
  { layout := l.key
    request
    requested := pick requested
    write := pick write
    read := pick read
    fullWrite := write.length == l.fields.length
    fullRead := read.length == l.fields.length }

/-- The plan that takes every field. -/
def full (l : Layout) : Plan := ofPlaces l .full l.allPlaces l.allPlaces l.allPlaces

/-- The plan that gets at the field at one place. -/
def one (l : Layout) (place : Nat) : Plan :=
  ofPlaces l (.one place) [place] (l.writeClosure place) (l.readClosure place)

/-- The plan that takes what the plans of several places take. -/
def several (l : Layout) (places : List Nat) (plans : List Plan) : Plan :=
  let union (fields : Plan → List BoundField) : List Nat :=
    let slots := plans.flatMap fun p => (fields p).map (·.slot)
    l.allPlaces.filter fun place => match l.at? place with
      | some f => slots.contains f.slot
      | none => false
  ofPlaces l (.several places) places (union (·.write)) (union (·.read))

/-- The derived fields among those to write. -/
def derived (p : Plan) : List BoundField := p.write.filter (·.derivation.isSome)

/-- The slots of some fields. -/
def slots (fields : List BoundField) : List Nat := fields.map (·.slot)

/-- The names of some fields. -/
def names (fields : List BoundField) : List String := fields.map (·.name)

/-- Whether two plans take the same slots in the same order. -/
def same (p q : Plan) : Bool := slots p.write == slots q.write && slots p.read == slots q.read

/-- Whether two plans answer the same request on the same layout. -/
def sameRequest (p q : Plan) : Bool := p.layout == q.layout && p.request == q.request

/-- The bytes that stand for what a plan takes. -/
def signature (p : Plan) : Bytes :=
  let words (fields : List BoundField) : Bytes := (slots fields).flatMap (leBytes 8)
  Utf8.encode "w" ++ words p.write ++ Utf8.encode "r" ++ words p.read

/-- The first eight bytes of the digest of the signature, as a number. -/
def fingerprint (p : Plan) : Nat := leValue ((Blake3.digest p.signature).take 8)

/-- The debug text of a plan. -/
def text (p : Plan) : String :=
  Text.record "Ticket" [("requested", Text.quotedList (names p.requested)),
    ("full_write", Text.bool p.fullWrite), ("full_read", Text.bool p.fullRead),
    ("write", Text.quotedList (names p.write)), ("read", Text.quotedList (names p.read)),
    ("hash", hexDigits16 p.fingerprint)]

end Plan

end RecordLayout
