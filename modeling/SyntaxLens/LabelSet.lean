/-!
# Sets of labels

A `LabelSet` lists its labels in increasing order and each of them once, whatever the order and
the repetitions of the labels it is made from.
-/

namespace SyntaxLens

/-- A set of labels, in increasing order. -/
structure LabelSet where
  labels : List String
deriving DecidableEq

namespace LabelSet

/-- Adds a label to an increasing list of labels. -/
def insertLabel (label : String) : List String → List String
  | [] => [label]
  | l :: ls =>
    if label < l then label :: l :: ls
    else if l = label then l :: ls
    else l :: insertLabel label ls

def ofList (labels : List String) : LabelSet :=
  ⟨labels.foldr insertLabel []⟩

instance : Membership String LabelSet := ⟨fun s label => label ∈ s.labels⟩

instance (label : String) (s : LabelSet) : Decidable (label ∈ s) :=
  inferInstanceAs (Decidable (label ∈ s.labels))

/-- The labels of detached fields, unless others are given. -/
def detached : LabelSet :=
  ofList ["decorator_list"]

end LabelSet

end SyntaxLens
