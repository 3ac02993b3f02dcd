/-!
# Token kinds

The kinds of token that a text is cut into: punctuation, names and literals, and keywords. A
kind has a number, a name for messages, and, if every token of the kind is written alike, a
spelling. `ofWord?` reads a word as the keyword it spells (`text_to_keyword`), and `precedence?` is
`binary_precedence`.
-/

namespace Caret

/-- The kind of a token. `unknown` is a character that starts no token, `endOfFile` the end. -/
inductive TokenKind where
  | unknown | endOfFile
  | openBrace | closeBrace | openParen | closeParen | openBracket | closeBracket | semicolon
  | comma | colon | dot | question | equals | equalsEquals | equalsGreater | exclamation
  | exclamationEquals | less | lessEquals | greater | greaterEquals | plus | plusEquals | minus
  | minusEquals | asterisk | slash | percent | ampersandAmpersand | barBar
  | identifier | numericLiteral | stringLiteral
  | abstractKeyword | internalKeyword | overrideKeyword | partialKeyword | privateKeyword
  | protectedKeyword | publicKeyword | readonlyKeyword | sealedKeyword | staticKeyword
  | virtualKeyword | inKeyword | outKeyword | paramsKeyword | refKeyword | classKeyword
  | interfaceKeyword | namespaceKeyword | structKeyword | boolKeyword | doubleKeyword | intKeyword
  | objectKeyword | stringKeyword | voidKeyword | baseKeyword | elseKeyword | falseKeyword
  | getKeyword | ifKeyword | newKeyword | nullKeyword | returnKeyword | setKeyword | thisKeyword
  | trueKeyword | whileKeyword
deriving DecidableEq

namespace TokenKind

/-- All kinds in the order of their numbers. -/
def all : List TokenKind := [
  .unknown, .endOfFile, .openBrace, .closeBrace, .openParen, .closeParen, .openBracket,
  .closeBracket, .semicolon, .comma, .colon, .dot, .question, .equals, .equalsEquals,
  .equalsGreater, .exclamation, .exclamationEquals, .less, .lessEquals, .greater, .greaterEquals,
  .plus, .plusEquals, .minus, .minusEquals, .asterisk, .slash, .percent, .ampersandAmpersand,
  .barBar, .identifier, .numericLiteral, .stringLiteral, .abstractKeyword, .internalKeyword,
  .overrideKeyword, .partialKeyword, .privateKeyword, .protectedKeyword, .publicKeyword,
  .readonlyKeyword, .sealedKeyword, .staticKeyword, .virtualKeyword, .inKeyword, .outKeyword,
  .paramsKeyword, .refKeyword, .classKeyword, .interfaceKeyword, .namespaceKeyword, .structKeyword,
  .boolKeyword, .doubleKeyword, .intKeyword, .objectKeyword, .stringKeyword, .voidKeyword,
  .baseKeyword, .elseKeyword, .falseKeyword, .getKeyword, .ifKeyword, .newKeyword, .nullKeyword,
  .returnKeyword, .setKeyword, .thisKeyword, .trueKeyword, .whileKeyword]

def code (k : TokenKind) : Nat := k.ctorIdx

def lastCode : Nat := code .whileKeyword

def ofCode? (n : Nat) : Option TokenKind := all[n]?

@[simp] theorem ofCode?_code (k : TokenKind) : ofCode? k.code = some k := by cases k <;> rfl

theorem code_le_lastCode (k : TokenKind) : k.code ≤ lastCode := by cases k <;> decide

/-- The name of a kind in messages. -/
def name : TokenKind → String
  | .unknown => "Unknown"
  | .endOfFile => "EndOfFileToken"
  | .openBrace => "OpenBraceToken"
  | .closeBrace => "CloseBraceToken"
  | .openParen => "OpenParenToken"
  | .closeParen => "CloseParenToken"
  | .openBracket => "OpenBracketToken"
  | .closeBracket => "CloseBracketToken"
  | .semicolon => "SemicolonToken"
  | .comma => "CommaToken"
  | .colon => "ColonToken"
  | .dot => "DotToken"
  | .question => "QuestionToken"
  | .equals => "EqualsToken"
  | .equalsEquals => "EqualsEqualsToken"
  | .equalsGreater => "EqualsGreaterThanToken"
  | .exclamation => "ExclamationToken"
  | .exclamationEquals => "ExclamationEqualsToken"
  | .less => "LessThanToken"
  | .lessEquals => "LessThanEqualsToken"
  | .greater => "GreaterThanToken"
  | .greaterEquals => "GreaterThanEqualsToken"
  | .plus => "PlusToken"
  | .plusEquals => "PlusEqualsToken"
  | .minus => "MinusToken"
  | .minusEquals => "MinusEqualsToken"
  | .asterisk => "AsteriskToken"
  | .slash => "SlashToken"
  | .percent => "PercentToken"
  | .ampersandAmpersand => "AmpersandAmpersandToken"
  | .barBar => "BarBarToken"
  | .identifier => "Identifier"
  | .numericLiteral => "NumericLiteral"
  | .stringLiteral => "StringLiteral"
  | .abstractKeyword => "AbstractKeyword"
  | .internalKeyword => "InternalKeyword"
  | .overrideKeyword => "OverrideKeyword"
  | .partialKeyword => "PartialKeyword"
  | .privateKeyword => "PrivateKeyword"
  | .protectedKeyword => "ProtectedKeyword"
  | .publicKeyword => "PublicKeyword"
  | .readonlyKeyword => "ReadonlyKeyword"
  | .sealedKeyword => "SealedKeyword"
  | .staticKeyword => "StaticKeyword"
  | .virtualKeyword => "VirtualKeyword"
  | .inKeyword => "InKeyword"
  | .outKeyword => "OutKeyword"
  | .paramsKeyword => "ParamsKeyword"
  | .refKeyword => "RefKeyword"
  | .classKeyword => "ClassKeyword"
  | .interfaceKeyword => "InterfaceKeyword"
  | .namespaceKeyword => "NamespaceKeyword"
  | .structKeyword => "StructKeyword"
  | .boolKeyword => "BoolKeyword"
  | .doubleKeyword => "DoubleKeyword"
  | .intKeyword => "IntKeyword"
  | .objectKeyword => "ObjectKeyword"
  | .stringKeyword => "StringKeyword"
  | .voidKeyword => "VoidKeyword"
  | .baseKeyword => "BaseKeyword"
  | .elseKeyword => "ElseKeyword"
  | .falseKeyword => "FalseKeyword"
  | .getKeyword => "GetKeyword"
  | .ifKeyword => "IfKeyword"
  | .newKeyword => "NewKeyword"
  | .nullKeyword => "NullKeyword"
  | .returnKeyword => "ReturnKeyword"
  | .setKeyword => "SetKeyword"
  | .thisKeyword => "ThisKeyword"
  | .trueKeyword => "TrueKeyword"
  | .whileKeyword => "WhileKeyword"

def ofName? (n : String) : Option TokenKind := all.find? fun k => k.name == n

/-- How tokens of the kind are written; empty for the kinds whose tokens differ. -/
def spelling : TokenKind → List Char
  | .openBrace => ['{']
  | .closeBrace => ['}']
  | .openParen => ['(']
  | .closeParen => [')']
  | .openBracket => ['[']
  | .closeBracket => [']']
  | .semicolon => [';']
  | .comma => [',']
  | .colon => [':']
  | .dot => ['.']
  | .question => ['?']
  | .equals => ['=']
  | .equalsEquals => ['=', '=']
  | .equalsGreater => ['=', '>']
  | .exclamation => ['!']
  | .exclamationEquals => ['!', '=']
  | .less => ['<']
  | .lessEquals => ['<', '=']
  | .greater => ['>']
  | .greaterEquals => ['>', '=']
  | .plus => ['+']
  | .plusEquals => ['+', '=']
  | .minus => ['-']
  | .minusEquals => ['-', '=']
  | .asterisk => ['*']
  | .slash => ['/']
  | .percent => ['%']
  | .ampersandAmpersand => ['&', '&']
  | .barBar => ['|', '|']
  | .abstractKeyword => ['a', 'b', 's', 't', 'r', 'a', 'c', 't']
  | .internalKeyword => ['i', 'n', 't', 'e', 'r', 'n', 'a', 'l']
  | .overrideKeyword => ['o', 'v', 'e', 'r', 'r', 'i', 'd', 'e']
  | .partialKeyword => ['p', 'a', 'r', 't', 'i', 'a', 'l']
  | .privateKeyword => ['p', 'r', 'i', 'v', 'a', 't', 'e']
  | .protectedKeyword => ['p', 'r', 'o', 't', 'e', 'c', 't', 'e', 'd']
  | .publicKeyword => ['p', 'u', 'b', 'l', 'i', 'c']
  | .readonlyKeyword => ['r', 'e', 'a', 'd', 'o', 'n', 'l', 'y']
  | .sealedKeyword => ['s', 'e', 'a', 'l', 'e', 'd']
  | .staticKeyword => ['s', 't', 'a', 't', 'i', 'c']
  | .virtualKeyword => ['v', 'i', 'r', 't', 'u', 'a', 'l']
  | .inKeyword => ['i', 'n']
  | .outKeyword => ['o', 'u', 't']
  | .paramsKeyword => ['p', 'a', 'r', 'a', 'm', 's']
  | .refKeyword => ['r', 'e', 'f']
  | .classKeyword => ['c', 'l', 'a', 's', 's']
  | .interfaceKeyword => ['i', 'n', 't', 'e', 'r', 'f', 'a', 'c', 'e']
  | .namespaceKeyword => ['n', 'a', 'm', 'e', 's', 'p', 'a', 'c', 'e']
  | .structKeyword => ['s', 't', 'r', 'u', 'c', 't']
  | .boolKeyword => ['b', 'o', 'o', 'l']
  | .doubleKeyword => ['d', 'o', 'u', 'b', 'l', 'e']
  | .intKeyword => ['i', 'n', 't']
  | .objectKeyword => ['o', 'b', 'j', 'e', 'c', 't']
  | .stringKeyword => ['s', 't', 'r', 'i', 'n', 'g']
  | .voidKeyword => ['v', 'o', 'i', 'd']
  | .baseKeyword => ['b', 'a', 's', 'e']
  | .elseKeyword => ['e', 'l', 's', 'e']
  | .falseKeyword => ['f', 'a', 'l', 's', 'e']
  | .getKeyword => ['g', 'e', 't']
  | .ifKeyword => ['i', 'f']
  | .newKeyword => ['n', 'e', 'w']
  | .nullKeyword => ['n', 'u', 'l', 'l']
  | .returnKeyword => ['r', 'e', 't', 'u', 'r', 'n']
  | .setKeyword => ['s', 'e', 't']
  | .thisKeyword => ['t', 'h', 'i', 's']
  | .trueKeyword => ['t', 'r', 'u', 'e']
  | .whileKeyword => ['w', 'h', 'i', 'l', 'e']
  | .unknown | .endOfFile | .identifier | .numericLiteral | .stringLiteral => []

/-! ## Classes of kinds -/

def isKeyword (k : TokenKind) : Bool :=
  code .abstractKeyword ≤ k.code && k.code ≤ code .whileKeyword

/-- A name or a reserved word: what stands before the caret while it is being typed. -/
def isWord (k : TokenKind) : Bool := k == .identifier || k.isKeyword

def isModifier : TokenKind → Bool
  | .abstractKeyword | .internalKeyword | .overrideKeyword | .partialKeyword | .privateKeyword
  | .protectedKeyword | .publicKeyword | .readonlyKeyword | .sealedKeyword | .staticKeyword
  | .virtualKeyword => true
  | _ => false

def isParameterModifier : TokenKind → Bool
  | .thisKeyword | .refKeyword | .outKeyword | .inKeyword | .paramsKeyword => true
  | _ => false

def isPredefinedType : TokenKind → Bool
  | .boolKeyword | .doubleKeyword | .intKeyword | .objectKeyword | .stringKeyword
  | .voidKeyword => true
  | _ => false

def isAssignment : TokenKind → Bool
  | .equals | .plusEquals | .minusEquals => true
  | _ => false

/-- The operators that may stand before a single operand. -/
def isSign : TokenKind → Bool
  | .exclamation | .minus | .plus => true
  | _ => false

/-- How tightly a binary operator binds, from 1 up to 6. -/
def precedence? : TokenKind → Option Nat
  | .barBar => some 1
  | .ampersandAmpersand => some 2
  | .equalsEquals | .exclamationEquals => some 3
  | .less | .lessEquals | .greater | .greaterEquals => some 4
  | .plus | .minus => some 5
  | .asterisk | .slash | .percent => some 6
  | _ => none

/-- A keyword that declares a class, struct or interface. -/
def isTypeKeyword : TokenKind → Bool
  | .classKeyword | .structKeyword | .interfaceKeyword => true
  | _ => false

/-! ## Words -/

/-- The keyword that a word spells. -/
def ofWord? (word : List Char) : Option TokenKind :=
  all.find? fun k => k.isKeyword && k.spelling == word

theorem ofWord?_spelling {k : TokenKind} : k.isKeyword → ofWord? k.spelling = some k := by
  cases k <;> decide

theorem isKeyword_of_ofWord? {word : List Char} {k : TokenKind} (h : ofWord? word = some k) :
    k.isKeyword ∧ k.spelling = word := by
  simpa using List.find?_some h

end TokenKind

end Caret
