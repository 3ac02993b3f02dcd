import Caret.Token.Kind
/-!
# Contextual keywords

The keywords that completion can suggest (`KeywordKind`), each with the kind of token that it is.
-/

namespace Caret

inductive Keyword where
  | this | base | ref | out | params
deriving DecidableEq

namespace Keyword

def all : List Keyword := [.this, .base, .ref, .out, .params]

/-- The kind of token that a keyword is. -/
def token : Keyword → TokenKind
  | .this => .thisKeyword
  | .base => .baseKeyword
  | .ref => .refKeyword
  | .out => .outKeyword
  | .params => .paramsKeyword

def spelling (k : Keyword) : List Char := k.token.spelling

def text (k : Keyword) : String := String.ofList k.spelling

def ofText? (s : String) : Option Keyword := all.find? fun k => k.text == s

def order (k : Keyword) : Nat := k.ctorIdx

theorem mem_all (k : Keyword) : k ∈ all := by cases k <;> decide

end Keyword

end Caret
