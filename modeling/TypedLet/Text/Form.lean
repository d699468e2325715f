namespace TypedLet.Text

/-- A constructor with its named fields, in parentheses and separated by commas. -/
def form (label : String) (fields : List (String × String)) : String :=
  label ++ "(" ++ ", ".intercalate (fields.map fun f ↦ f.1 ++ "=" ++ f.2) ++ ")"

def truth : Bool → String
  | true => "True"
  | false => "False"

end TypedLet.Text
