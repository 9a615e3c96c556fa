import AsOf.Domain

/-!
# Data sets and their columns

A `Dataset` declares columns, each with a type and a missing value, and may be
specialised to a domain. A `Column` is a declared column bound to its data set;
it is known by data set, name and domain code, and so are equality and order.
A `Registry` keeps data sets by name.
-/
namespace AsOf

/-- A declared column. -/
structure Field where
  name : String
  dtype : Dtype
  missing : Scalar

namespace Field

/-- A column with the default missing value of its type. -/
def ofDtype? (name : String) (dtype : Dtype) : Except TermError Field :=
  match dtype.defaultMissing? with
  | some missing => .ok ⟨name, dtype, missing⟩
  | none => .error (.noDefaultMissing name dtype)

/-- A column with a missing value of its own. -/
def withMissing? (name : String) (dtype : Dtype) (missing : Scalar) : Except TermError Field :=
  if missing.dtype = dtype then .ok ⟨name, dtype, missing⟩
  else .error (.missingValueDtype name dtype missing)

end Field

/-- A column of a data set in a domain. -/
structure Column where
  dataset : String
  name : String
  dtype : Dtype
  missing : Scalar
  domain : Domain

namespace Column

/-- What a column is known by. -/
def key (c : Column) : String × String × String := (c.dataset, c.name, c.domain.code)

def same (a b : Column) : Bool := a.key == b.key

instance : BEq Column := ⟨same⟩

/-- By data set, then by name, then by domain code. -/
def precedes (a b : Column) : Bool :=
  if a.dataset != b.dataset then a.dataset < b.dataset
  else if a.name != b.name then a.name < b.name
  else a.domain.code ≤ b.domain.code

/-- The full name; a domain that is not generic shows. -/
def qualifiedName (c : Column) : String :=
  if c.domain.isGeneric then c.dataset ++ "." ++ c.name
  else c.dataset ++ "<" ++ c.domain.code ++ ">." ++ c.name

end Column

/-- A named collection of declared columns. -/
structure Dataset where
  name : String
  fields : List Field
  domain : Domain

namespace Dataset

/-- The first name that a list holds twice. -/
def repeated? : List String → List String → Option String
  | _, [] => none
  | seen, name :: rest => if seen.contains name then some name else repeated? (name :: seen) rest

/-- A generic data set; no column may be declared twice. -/
def mk? (name : String) (fields : List Field) : Except TermError Dataset :=
  match repeated? [] (fields.map (·.name)) with
  | some column => .error (.duplicateColumn name column)
  | none => .ok ⟨name, fields, .generic⟩

/-- The data set in a domain. One that is specialised already keeps its domain. -/
def specialize (d : Dataset) (domain : Domain) : Except TermError Dataset :=
  if !d.domain.isGeneric && d.domain != domain then
    .error (.ambiguousDomain [d.domain.code, domain.code])
  else .ok { d with domain }

def bind (d : Dataset) (f : Field) : Column := ⟨d.name, f.name, f.dtype, f.missing, d.domain⟩

/-- The column of a name. -/
def column? (d : Dataset) (name : String) : Except TermError Column :=
  match d.fields.find? (·.name == name) with
  | some f => .ok (d.bind f)
  | none => .error (.unknownColumn d.name name)

def columns (d : Dataset) : List Column := d.fields.map d.bind

/-- Daily prices and volumes of shares. -/
def equityPricing : Dataset :=
  ⟨"EquityPricing",
    ["open", "high", "low", "close", "volume"].map fun name => ⟨name, .float64, .float nan⟩,
    .generic⟩

end Dataset

/-- Data sets by name, in the order of the names. -/
structure Registry where
  datasets : List Dataset

namespace Registry

def empty : Registry := ⟨[]⟩

def get? (r : Registry) (name : String) : Option Dataset := r.datasets.find? (·.name == name)

/-- Puts a data set at its place. -/
def insert (d : Dataset) : List Dataset → List Dataset
  | [] => [d]
  | e :: rest => if d.name < e.name then d :: e :: rest else e :: insert d rest

/-- Adds a data set whose name is new. -/
def register (r : Registry) (d : Dataset) : Except TermError Registry :=
  if (r.get? d.name).isSome then .error (.duplicateDataset d.name)
  else .ok ⟨insert d r.datasets⟩

def column? (r : Registry) (dataset name : String) : Except TermError Column :=
  match r.get? dataset with
  | some d => d.column? name
  | none => .error (.unknownDataset dataset)

end Registry
end AsOf
