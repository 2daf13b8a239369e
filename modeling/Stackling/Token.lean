import Stackling.Position
import Stackling.Text.Quoted

/-!
# Tokens

The words, operators and delimiters of the language, each kind with its spelling, and the tokens
that carry a kind, the text they were read from and the place where that text starts. A kind
outside the language (`Kind.other`) is representable because a token list may be handed to the
parser from outside; the parser then rejects it like any token that does not fit.
-/

namespace Stackling

/-- The reserved words. -/
inductive Keyword where
  | function
  | cond
  | var
  | print
  | ret
  | loop
  | int
  | float
  | string
  | bool
  | char
  | buffer
  | regex
  deriving DecidableEq, Repr

namespace Keyword

/-- How the word is spelled. Case matters. -/
def word : Keyword → String
  | function => "function"
  | cond => "if"
  | var => "var"
  | print => "print"
  | ret => "return"
  | loop => "for"
  | int => "int"
  | float => "float"
  | string => "string"
  | bool => "bool"
  | char => "char"
  | buffer => "buffer"
  | regex => "regex"

/-- The name of the word's token kind. The type of strings has a name of its own, since `STRING`
names the literals. -/
def kindName : Keyword → String
  | function => "FUNCTION"
  | cond => "IF"
  | var => "VAR"
  | print => "PRINT"
  | ret => "RETURN"
  | loop => "FOR"
  | int => "INT"
  | float => "FLOAT"
  | string => "STRING_TYPE"
  | bool => "BOOL"
  | char => "CHAR"
  | buffer => "BUFFER"
  | regex => "REGEX"

/-- Every reserved word. -/
def all : List Keyword :=
  [function, cond, var, print, ret, loop, int, float, string, bool, char, buffer, regex]

/-- Does the word name a type in a declaration? -/
def isType : Keyword → Bool
  | int | float | string | bool | char | buffer | regex => true
  | function | cond | var | print | ret | loop => false

/-- The reserved word spelled `w`. -/
def ofWord? (w : String) : Option Keyword := all.find? fun k => k.word == w

end Keyword

/-- The operators. -/
inductive Operator where
  | plus
  | minus
  | times
  | divide
  | assign
  | eq
  | ne
  | lt
  | gt
  | le
  | ge
  | arrow
  | and
  | or
  deriving DecidableEq, Repr

namespace Operator

/-- How the operator is spelled. -/
def symbol : Operator → String
  | plus => "+"
  | minus => "-"
  | times => "*"
  | divide => "/"
  | assign => "="
  | eq => "=="
  | ne => "!="
  | lt => "<"
  | gt => ">"
  | le => "<="
  | ge => ">="
  | arrow => "->"
  | and => "&&"
  | or => "||"

/-- Every operator. -/
def all : List Operator :=
  [plus, minus, times, divide, assign, eq, ne, lt, gt, le, ge, arrow, and, or]

/-- The operator spelled `s`. -/
def ofSymbol? (s : String) : Option Operator := all.find? fun o => o.symbol == s

end Operator

/-- The delimiters, each a single character. -/
inductive Delimiter where
  | lparen
  | rparen
  | lbrace
  | rbrace
  | colon
  | semicolon
  | comma
  | dot
  deriving DecidableEq, Repr

namespace Delimiter

/-- How the delimiter is spelled. -/
def symbol : Delimiter → Char
  | lparen => '('
  | rparen => ')'
  | lbrace => '{'
  | rbrace => '}'
  | colon => ':'
  | semicolon => ';'
  | comma => ','
  | dot => '.'

/-- Every delimiter. -/
def all : List Delimiter := [lparen, rparen, lbrace, rbrace, colon, semicolon, comma, dot]

/-- The delimiter spelled `c`. -/
def ofSymbol? (c : Char) : Option Delimiter := all.find? fun d => d.symbol == c

end Delimiter

/-- What a token is. -/
inductive Kind where
  | eof
  | unknown
  | ident
  | number
  | string
  | keyword (k : Keyword)
  | operator (o : Operator)
  | delimiter (d : Delimiter)
  | other (name : String)
  deriving DecidableEq, Repr

namespace Kind

/-- The name of a kind. -/
def name : Kind → String
  | eof => "EOF"
  | unknown => "UNKNOWN"
  | ident => "IDENT"
  | number => "NUMBER"
  | string => "STRING"
  | keyword k => k.kindName
  | operator o => o.symbol
  | delimiter d => String.singleton d.symbol
  | other n => n

/-- Every kind of the language. -/
def all : List Kind :=
  [eof, unknown, ident, number, string] ++ Keyword.all.map keyword ++ Operator.all.map operator ++
    Delimiter.all.map delimiter

/-- The kind called `n`. -/
def ofName (n : String) : Kind := (all.find? fun k => k.name == n).getD (other n)

/-- The kind of a word: its keyword, or an identifier. -/
def ofWord (w : String) : Kind :=
  match Keyword.ofWord? w with
  | some k => keyword k
  | none => ident

/-- Does the kind name a type in a declaration? -/
def isType : Kind → Bool
  | keyword k => k.isType
  | _ => false

/-- How a message names a kind that was expected. -/
def describe : Kind → String
  | eof => "end of input"
  | unknown => "'unknown'"
  | ident => "identifier"
  | number => "number"
  | string => "string literal"
  | keyword k => "'" ++ k.word ++ "'"
  | operator o => "'" ++ o.symbol ++ "'"
  | delimiter d => "'" ++ String.singleton d.symbol ++ "'"
  | other n => "'" ++ n.toLower ++ "'"

end Kind

/-- A unit of source text. -/
structure Token where
  /-- what it is -/
  kind : Kind
  /-- the text it was read from; for a string literal the text that the literal stands for -/
  lexeme : String
  /-- where that text starts -/
  pos : Position
  deriving DecidableEq, Repr

namespace Token

/-- How a message names a token that was found. -/
def describe (t : Token) : String :=
  match t.kind with
  | .eof => "end of input"
  | .string => Quoted.string t.lexeme
  | _ => "'" ++ t.lexeme ++ "'"

/-- A kind and a lexeme on display. The lexeme may be any bytes. -/
def display (kind : Kind) (lexeme : Bytes) : String :=
  match kind with
  | .eof => "end of input"
  | k => k.name ++ " " ++ Quoted.bytes lexeme

end Token

end Stackling
