import Mathlib.Data.List.Basic

/-! The topic configurations that the broker reads under a name or under an earlier name of it. -/

namespace Nisshi.SansIo.TopicConfig

universe u

def batch : String := "nisshi.batch"

def batchTimeoutMs : String := "nisshi.batch.timeout_ms"

def batchMaxRecords : String := "nisshi.batch.max_records"

def lakeSink : String := "nisshi.lake.sink"

def lakePartition : String := "nisshi.lake.partition"

def lakeZOrder : String := "nisshi.lake.z_order"

def lakeNormalize : String := "nisshi.lake.normalize"

def lakeNormalizeSeparator : String := "nisshi.lake.normalize.separator"

def lakeGenerate : String := "nisshi.lake.generate."

def schemaValidation : String := "nisshi.schema.validation"

def virtual : String := "nisshi.virtual"

/-- A name with the earlier name that it replaces. The names of a family are those that start with it. -/
structure Key where
  canonical : String
  aliasName : String
  family : Bool
  deriving DecidableEq

def keys : List Key :=
  [⟨batch, "tansu.batch", false⟩, ⟨batchTimeoutMs, "tansu.batch.timeout_ms", false⟩,
    ⟨batchMaxRecords, "tansu.batch.max_records", false⟩, ⟨lakeSink, "tansu.lake.sink", false⟩,
    ⟨lakePartition, "tansu.lake.partition", false⟩, ⟨lakeZOrder, "tansu.lake.z_order", false⟩,
    ⟨lakeNormalize, "tansu.lake.normalize", false⟩,
    ⟨lakeNormalizeSeparator, "tansu.lake.normalize.separator", false⟩,
    ⟨lakeGenerate, "tansu.lake.generate.", true⟩, ⟨schemaValidation, "tansu.schema.validation", false⟩,
    ⟨virtual, "tansu.virtual", false⟩]

def Key.aliasedBy (name : String) : Option Key :=
  keys.find? fun key =>
    if key.family then key.aliasName.toList.isPrefixOf name.toList else name = key.aliasName

def aliases (name key : String) : Bool :=
  (Key.aliasedBy name).any fun aliased => !aliased.family && aliased.canonical == key

/-- The loop of `lookup`, with the value of the first earlier name so far. -/
def lookupFrom {V : Type u} (key : String) : List (String × V) → Option V → Option V
  | [], aliased => aliased
  | (name, value) :: rest, aliased =>
    if name = key then some value
    else lookupFrom key rest (if aliased.isNone && aliases name key then some value else aliased)

def lookup {V : Type u} (entries : List (String × V)) (key : String) : Option V :=
  lookupFrom key entries none

end Nisshi.SansIo.TopicConfig
