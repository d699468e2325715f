import TypedLet.Grammar.Rule
import TypedLet.Text.Decimal

namespace TypedLet.Grammar

def letWord : List Char := ['l', 'e', 't']
def inWord : List Char := ['i', 'n']
def fnWord : List Char := ['f', 'n']
def trueWord : List Char := ['t', 'r', 'u', 'e']
def falseWord : List Char := ['f', 'a', 'l', 's', 'e']
def intWord : List Char := ['I', 'n', 't']
def boolWord : List Char := ['B', 'o', 'o', 'l']

def reserved : List (List Char) := [letWord, inWord, fnWord, trueWord, falseWord]

def isNameStart (c : Char) : Bool := c.isLower || c == '_'

def isNameChar (c : Char) : Bool := c.isAlphanum || c == '_'

/-- The characters that may not touch a keyword on either side. -/
def isWordChar (c : Char) : Bool := isNameChar c || c == '$'

/-- A numeral of a program with more digits than this is not read. -/
def maxDigits : Nat := 4300

/-- A word on its own. A neighbour that runs into it is where it fails. -/
def keyword (word : List Char) : Rule Unit := fun c ↦
  let d := c.skipLayout
  if word.isPrefixOf d.rest then
    if d.prev.any isWordChar then .failed (d.pos - 1)
    else if (d.rest.drop word.length).head?.any isWordChar then .failed (d.pos + word.length)
    else .parsed () (d.advance word.length)
  else .failed d.pos

/-- A mark, whatever stands next to it. -/
def symbol (mark : List Char) : Rule Unit := fun c ↦
  let d := c.skipLayout
  if mark.isPrefixOf d.rest then .parsed () (d.advance mark.length) else .failed d.pos

/-- A name, where no reserved word can be read. -/
def name : Rule String := fun c ↦
  if reserved.any fun word ↦ (keyword word c).isParsed then .failed c.pos
  else
    let d := c.skipLayout
    if d.rest.head?.any isNameStart then
      let run := d.rest.takeWhile isNameChar
      .parsed (String.ofList run) (d.advance run.length)
    else .failed d.pos

/-- The number that a run of at most `limit` digits writes. -/
def numeral (limit : Nat) : Rule Nat := fun c ↦
  let d := c.skipLayout
  let run := d.rest.takeWhile Char.isDigit
  if run.isEmpty then .failed d.pos
  else if limit < run.length then .overlong run.length
  else .parsed (Text.numeralValue run) (d.advance run.length)

end TypedLet.Grammar
