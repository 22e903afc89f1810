import DeltaFeed.Order
import DeltaFeed.Table

/-! Partitions: the values of the partition columns of a file, and the grouping of files by them.
-/

namespace DeltaFeed

/-- (pick absent values columns) are the values of columns, where absent stands for the value of a
column without one. A column that is named twice keeps its first place.
-/
def pick {α : Type} (absent : α) (values : List (String × α)) (columns : List String)
    : List (String × α) :=
  columns.foldl (fun kept column => put column ((values.lookup column).getD absent) kept) []

namespace PartitionValues

/-- (restrict values columns) are the values of the partition columns of a table; a column without
a value has null.
-/
def restrict (values : PartitionValues) (columns : List String) : PartitionValues :=
  pick none values columns

/-- (sorted values) are the values in the order of their columns. -/
def sorted (values : PartitionValues) : PartitionValues :=
  Order.sort (fun a b => Order.texts a.1 b.1) values

/-- (same a b) holds if a and b are the same values in any order. -/
def same (a b : PartitionValues) : Bool :=
  sorted a == sorted b

end PartitionValues

namespace FileGroup

/-- (insert file groups) puts a file at the end of the group with its partition values, which is a
new one if there is none.
-/
def insert (file : DataFile) : List FileGroup → List FileGroup
  | [] => [{ partitionValues := file.partitionValues, files := [file] }]
  | group :: rest =>
    if PartitionValues.same group.partitionValues file.partitionValues then
      { group with files := group.files ++ [file] } :: rest
    else group :: insert file rest

/-- (ofFiles files) are the groups of files with the same partition values, in the order in which
they first occur.
-/
def ofFiles (files : List DataFile) : List FileGroup :=
  files.foldl (fun groups file => insert file groups) []

end FileGroup

end DeltaFeed
