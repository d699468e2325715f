namespace TypedLet.Text

def numeralValue (digits : List Char) : Nat := Nat.ofDigitChars 10 digits 0

/-- The decimal numeral of an integer, without leading zeros. -/
def decimal : Int → String
  | .ofNat n => String.ofList (Nat.toDigits 10 n)
  | .negSucc n => String.ofList ('-' :: Nat.toDigits 10 (n + 1))

theorem numeralValue_toDigits (n : Nat) : numeralValue (Nat.toDigits 10 n) = n :=
  Nat.ofDigitChars_toDigits (by decide) (by decide)

end TypedLet.Text
