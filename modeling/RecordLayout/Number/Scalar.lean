/-!
# Scalar kinds

The kinds of number a field can hold in its native width. A kind has a name, under which types
are registered, and a variant name, which debug text shows.
-/

namespace RecordLayout

/-- A kind of scalar with a fixed native width. -/
inductive ScalarKind where
  | bool
  | i8
  | i16
  | i32
  | i64
  | u8
  | u16
  | u32
  | u64
  | f32
  | f64
  deriving DecidableEq, Repr, Inhabited

namespace ScalarKind

/-- Every kind, in the order in which type ids are given to them. -/
def all : List ScalarKind := [.bool, .i8, .i16, .i32, .i64, .u8, .u16, .u32, .u64, .f32, .f64]

/-- The number of bytes of a scalar. -/
def bytes : ScalarKind → Nat
  | .bool | .i8 | .u8 => 1
  | .i16 | .u16 => 2
  | .i32 | .u32 | .f32 => 4
  | .i64 | .u64 | .f64 => 8

/-- The name of the kind as a type. -/
def name : ScalarKind → String
  | .bool => "bool"
  | .i8 => "i8"
  | .i16 => "i16"
  | .i32 => "i32"
  | .i64 => "i64"
  | .u8 => "u8"
  | .u16 => "u16"
  | .u32 => "u32"
  | .u64 => "u64"
  | .f32 => "f32"
  | .f64 => "f64"

/-- The name of the kind as a variant of values. -/
def variantName : ScalarKind → String
  | .bool => "Bool"
  | .i8 => "I8"
  | .i16 => "I16"
  | .i32 => "I32"
  | .i64 => "I64"
  | .u8 => "U8"
  | .u16 => "U16"
  | .u32 => "U32"
  | .u64 => "U64"
  | .f32 => "F32"
  | .f64 => "F64"

/-- The kind with a type name. -/
def ofName? (name : String) : Option ScalarKind := all.find? (·.name == name)

/-- Whether scalars of the kind are integers. -/
def isInteger : ScalarKind → Bool
  | .bool | .f32 | .f64 => false
  | _ => true

end ScalarKind

end RecordLayout
