import ReSTM.Types.Failure

/-!
# Stored values

Model of `JacksonValue` (`storage/types/JacksonValue.scala`): strings are stored as
they are, everything else is written and read by Jackson. Jackson and Gson are
parameters. A nullable value is an `Option`.
-/

namespace ReSTM

/-- `runtimeClass` of a `ClassTag`. `nothing` is the class of `ClassTag.Nothing`, which
    stands wherever a type parameter is left to inference and nothing determines it. -/
inductive RuntimeClass where
  | string
  | nothing
  | other (name : String)
deriving DecidableEq, Repr

def RuntimeClass.toString : RuntimeClass → String
  | string => "class java.lang.String"
  | nothing => "class scala.runtime.Nothing$"
  | other name => "class " ++ name

/-- A value of a type below `AnyRef`: a string or another object. -/
inductive AnyRef (O : Type) where
  | string (s : String)
  | obj (o : O)
deriving DecidableEq, Repr

/-- What `JacksonValue` uses of Jackson's `mapper` and of Gson. Values are of types that
    Jackson can write. -/
structure ObjectMapper (O : Type) where
  writeValue : Option O → String
  readValue : String → RuntimeClass → Except Failure (Option (AnyRef O))
  pretty : String → Except Failure String

/-- `class JacksonValue(val data: String)`. -/
structure JacksonValue where
  data : String
deriving DecidableEq, Repr

namespace JacksonValue

variable {O : Type} (mapper : ObjectMapper O)

/-- `JacksonValue.apply` (lines 83–95). -/
def ofValue : Option (AnyRef O) → JacksonValue
  | some (.string s) => ⟨s⟩
  | some (.obj o) => ⟨mapper.writeValue (some o)⟩
  | none => ⟨mapper.writeValue none⟩

/-- `deserialize[T]` (lines 102–117). The text of the error is itself computed, and what
    that throws is thrown instead. -/
def deserialize (runtimeClass : RuntimeClass) (v : JacksonValue) :
    Except Failure (Option (Option (AnyRef O))) :=
  if runtimeClass = .string then .ok (some (some (.string v.data)))
  else if v.data.isEmpty then .ok none
  else
    match mapper.readValue v.data runtimeClass with
    | .ok value => .ok (some value)
    | .error _ => do
      let pretty ← mapper.pretty v.data
      throw (.illegalArgument
        ("Error deserializing to " ++ runtimeClass.toString ++ ": " ++ pretty))

end JacksonValue

end ReSTM
