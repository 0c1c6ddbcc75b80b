import Cddl.Grammar.Lexeme

/-!
The terminals of the rule grammar: the label under which each is expected, its name in a
message, and the text it matches.
-/
namespace Cddl

inductive Terminal where
  | name | assign | number | text | bytes | occurrence | range | control | tag | major
  | groupChoice | arrow | openBrace | closeBrace | openParen | closeParen
  | openBracket | closeBracket | less | greater | comma | colon | slash | tilde
  | ampersand | caret | hash
deriving DecidableEq, Repr

namespace Terminal

def all : List Terminal :=
  [name, assign, number, text, bytes, occurrence, range, control, tag, major,
    groupChoice, arrow, openBrace, closeBrace, openParen, closeParen,
    openBracket, closeBracket, less, greater, comma, colon, slash, tilde,
    ampersand, caret, hash]

def label : Terminal → String
  | name => "ID"
  | assign => "ASSIGN"
  | number => "NUMBER"
  | text => "TEXT"
  | bytes => "BYTES"
  | occurrence => "OCCUR"
  | range => "RANGEOP"
  | control => "CTLOP"
  | tag => "TAG"
  | major => "MAJOR"
  | groupChoice => "_GROUPCHOICE"
  | arrow => "_ARROW"
  | openBrace => "LBRACE"
  | closeBrace => "RBRACE"
  | openParen => "LPAR"
  | closeParen => "RPAR"
  | openBracket => "LSQB"
  | closeBracket => "RSQB"
  | less => "LESSTHAN"
  | greater => "MORETHAN"
  | comma => "COMMA"
  | colon => "COLON"
  | slash => "SLASH"
  | tilde => "TILDE"
  | ampersand => "AMPERSAND"
  | caret => "CIRCUMFLEX"
  | hash => "HASH"

def description : Terminal → String
  | name => "identificador"
  | assign => "'='"
  | number => "número"
  | text => "texto entre aspas"
  | bytes => "string de bytes"
  | occurrence => "indicador de ocorrência"
  | range => "'..'"
  | control => "operador de controle"
  | tag => "tag '#6'"
  | major => "tipo maior '#n'"
  | groupChoice => "'//'"
  | arrow => "'=>'"
  | openBrace => "'\x7b'"
  | closeBrace => "'\x7d'"
  | openParen => "'('"
  | closeParen => "')'"
  | openBracket => "'['"
  | closeBracket => "']'"
  | less => "'<'"
  | greater => "'>'"
  | comma => "','"
  | colon => "':'"
  | slash => "'/'"
  | tilde => "'~'"
  | ampersand => "'&'"
  | caret => "'^'"
  | hash => "'#'"

/-- The terminal that has a label; labels of other grammars have none. -/
def ofLabel? (s : String) : Option Terminal := all.find? (·.label == s)

/-- The length of the terminal's match at the front of a text. -/
def match? : Terminal → List Char → Option Nat
  | name => Lexeme.name?
  | assign => Lexeme.spelled? [['/', '/', '='], ['/', '='], ['=']]
  | number => Lexeme.number?
  | text => Lexeme.text?
  | bytes => Lexeme.bytes?
  | occurrence => Lexeme.occurrence?
  | range => Lexeme.spelled? [['.', '.', '.'], ['.', '.']]
  | control => Lexeme.control?
  | tag => Lexeme.tag?
  | major => Lexeme.major?
  | groupChoice => Lexeme.spelled? [['/', '/']]
  | arrow => Lexeme.spelled? [['=', '>']]
  | openBrace => Lexeme.spelled? [['\x7b']]
  | closeBrace => Lexeme.spelled? [['\x7d']]
  | openParen => Lexeme.spelled? [['(']]
  | closeParen => Lexeme.spelled? [[')']]
  | openBracket => Lexeme.spelled? [['[']]
  | closeBracket => Lexeme.spelled? [[']']]
  | less => Lexeme.spelled? [['<']]
  | greater => Lexeme.spelled? [['>']]
  | comma => Lexeme.spelled? [[',']]
  | colon => Lexeme.spelled? [[':']]
  | slash => Lexeme.spelled? [['/']]
  | tilde => Lexeme.spelled? [['~']]
  | ampersand => Lexeme.spelled? [['&']]
  | caret => Lexeme.spelled? [['^']]
  | hash => Lexeme.spelled? [['#']]

end Terminal

/-- A match of a terminal from `start` up to `stop`. -/
structure Token where
  terminal : Terminal
  start : Nat
  stop : Nat
deriving DecidableEq, Repr

end Cddl
