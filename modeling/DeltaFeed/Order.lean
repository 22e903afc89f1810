/-! Orders on lists and pairs, built from orders on their parts, and sorting by an order. Texts are
ordered by the codes of their characters.
-/

namespace DeltaFeed.Order

variable {α β : Type}

/-- (lists le) orders lists by the first place where they differ; a list comes before those that
go on after it.
-/
def lists [DecidableEq α] (le : α → α → Bool) : List α → List α → Bool
  | [], _ => true
  | _ :: _, [] => false
  | a :: as, b :: bs => if a = b then lists le as bs else le a b

/-- (pairs le le2) orders pairs by their first part, and by the second if the first are equal.
-/
def pairs [DecidableEq α] (le : α → α → Bool) (le2 : β → β → Bool) (p q : α × β) : Bool :=
  if p.1 = q.1 then le2 p.2 q.2 else le p.1 q.1

def chars (a b : Char) : Bool :=
  a.toNat ≤ b.toNat

def texts (a b : String) : Bool :=
  lists chars a.toList b.toList

/-- (insert le a items) puts a before the first item that may come after it. -/
def insert (le : α → α → Bool) (a : α) : List α → List α
  | [] => [a]
  | b :: rest => if le a b then a :: b :: rest else b :: insert le a rest

/-- (sort le items) are the items in order. Items of which each may come before the other stay as
they stand, and a list that is sorted already is gone through once.
-/
def sort (le : α → α → Bool) : List α → List α
  | [] => []
  | a :: rest => insert le a (sort le rest)

end DeltaFeed.Order
