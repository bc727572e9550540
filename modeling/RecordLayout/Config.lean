import RecordLayout.Text.Shape

/-!
# Settings

Two settings govern how records are written: whether every full write is checked, and how many
bytes more than needed are asked for when a chunk is allocated. Settings that are not given keep
their defaults.
-/

namespace RecordLayout

-- powers are those of numbers themselves, also where an algebra library is loaded
attribute [local instance (high)] instPowNat

/-- How records are written. -/
structure Config where
  /-- Check derived fields, sizes and written bytes on every full write. -/
  validateWrites : Bool
  /-- Bytes asked for on top of the size of a value that gets a chunk of its own. -/
  slack : Nat
  deriving DecidableEq, Repr

/-- A given value of a setting. -/
inductive Setting where
  | flag (value : Bool)
  | count (value : Nat)
  /-- A value that no setting takes. -/
  | other
  deriving DecidableEq, Repr

namespace Config

/-- The settings that hold when none are given. -/
def standard : Config := ⟨true, 0⟩

instance : Inhabited Config := ⟨standard⟩

/-- Settings under which every write is checked. -/
def validating : Config := { standard with validateWrites := true }

/-- The largest slack that makes sense. -/
def maxSlack : Nat := 2 ^ (20 : Nat)

/-- Why settings make no sense, if they do not. -/
def fault? (c : Config) : Option String :=
  if maxSlack < c.slack then some s!"reference_slack {c.slack} exceeds {maxSlack}" else none

/-- The name of the first setting. -/
def validateWritesKey : String := "validate_writes"

/-- The name of the second setting. -/
def slackKey : String := "reference_slack"

/-- Applies one given member; a name that no setting has is passed over. -/
def withMember (c : Config) (key : String) (value : Setting) : Option Config :=
  if key = validateWritesKey then
    match value with
    | .flag b => some { c with validateWrites := b }
    | _ => none
  else if key = slackKey then
    match value with
    | .count n => if n < 2 ^ (64 : Nat) then some { c with slack := n } else none
    | _ => none
  else some c

/-- The settings that named members give. -/
def ofMembers? (members : List (String × Setting)) : Option Config :=
  members.foldlM (fun c (key, value) => c.withMember key value) standard

/-- The settings that values give in the order of the settings. -/
def ofValues? (values : List Setting) : Option Config :=
  if 2 < values.length then none
  else ofMembers? ([validateWritesKey, slackKey].zip values)

/-- The debug text of settings. -/
def text (c : Config) : String :=
  Text.record "PipeConfig"
    [(validateWritesKey, Text.bool c.validateWrites), (slackKey, toString c.slack)]

end Config

end RecordLayout
