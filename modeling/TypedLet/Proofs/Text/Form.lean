import TypedLet.Text.Decimal
import TypedLet.Text.Form
import TypedLet.Text.Quoted

namespace TypedLet.Text

variable {s t x y : List Char} {c d mark : Char} {label label' : String} {m n : Int} {b b' : Bool}

/-- What a form writes behind the value of one of its fields. -/
def behind : List (String × String) → List Char
  | [] => [')']
  | (key, value) :: fields =>
    ',' :: ' ' :: (key.toList ++ '=' :: (value.toList ++ behind fields))

variable {key value value' : String} {fields fields' : List (String × String)}

end TypedLet.Text
