import ProjectRoots.Json.Value

/- Reading records and choices. A record is an object whose members are found by name: no known
   name may occur twice, members with other names are passed over, and every name has to be a
   text. It may also be an array of the first values in the order of the names. A choice among
   words is a text, or an object with the word as its only name and null behind it. -/
namespace ProjectRoots.Json.Value

/-- The members of an object by name. -/
def named (members : List (Option String × Value)) : Option (List (String × Value)) :=
  members.mapM fun member => member.1.map fun name => (name, member.2)

/-- The value of the only member with this name, or nothing if there is no such member. -/
def member? (members : List (String × Value)) (name : String) : Option (Option Value) :=
  match members.filter (·.1 == name) with
  | [] => some none
  | [(_, value)] => some (some value)
  | _ => none

/-- The values of the fields `names` among named members, where they are given. -/
def fieldsOfMembers (names : List String) (members : List (String × Value)) :
    Option (List (Option Value)) :=
  names.mapM (member? members)

/-- The values of the fields `names` from a row of values. -/
def fieldsOfItems : List String → List Value → Option (List (Option Value))
  | names, [] => some (names.map fun _ => none)
  | [], _ :: _ => none
  | _ :: names, item :: items => (fieldsOfItems names items).map (some item :: ·)

/-- The values of the fields `names` of a record, where they are given. -/
def fields (names : List String) : Value → Option (List (Option Value))
  | object members => (named members).bind (fieldsOfMembers names)
  | array items => fieldsOfItems names items
  | _ => none

/-- The word that a choice names. -/
def choice? : Value → Option String
  | string s => s
  | object [(key, null)] => key
  | _ => none

/-- The text that a value is. -/
def string? : Value → Option String
  | string s => s
  | _ => none

/-- The truth value that a value is. -/
def bool? : Value → Option Bool
  | bool b => some b
  | _ => none

/-- The natural number that a value is. -/
def nat? : Value → Option Nat
  | number n => n.toNat?
  | _ => none

/-- The items of an array, each read by `read?`. -/
def list? {α : Type} (read? : Value → Option α) : Value → Option (List α)
  | array items => items.mapM read?
  | _ => none

/-- A field that has to be given. -/
def required {α : Type} (read? : Value → Option α) (field : Option Value) : Option α :=
  field.bind read?

/-- A field that stands for `default` when it is not given. -/
def optional {α : Type} (default : α) (read? : Value → Option α) : Option Value → Option α
  | none => some default
  | some value => read? value

end ProjectRoots.Json.Value
