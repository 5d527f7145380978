/-! # License categories

The obligation classes of a license condition, from the mildest to the strictest. A rendered
section closes with the marker line of its category.
-/

namespace LicenseNotice

set_option autoImplicit false

inductive Category where
  | firstParty
  | notice
  | reciprocal
  | restricted
  | proprietary
  deriving DecidableEq, Repr

namespace Category

def all : List Category := [firstParty, notice, reciprocal, restricted, proprietary]

def rank : Category → Nat
  | firstParty => 0
  | notice => 1
  | reciprocal => 2
  | restricted => 3
  | proprietary => 4

def name : Category → String
  | firstParty => "first_party"
  | notice => "notice"
  | reciprocal => "reciprocal"
  | restricted => "restricted"
  | proprietary => "proprietary"

def marker : Category → String
  | firstParty => "&&&First Party License&&&"
  | notice => "%%%Notice License%%%"
  | reciprocal => "$$$Reciprocal License$$$"
  | restricted => "###Restricted License###"
  | proprietary => "@@@Proprietary License@@@"

def ofName? (text : String) : Option Category :=
  all.find? (·.name = text)

theorem ofName?_name (c : Category) : ofName? c.name = some c := by
  cases c <;> rfl

end Category

end LicenseNotice
