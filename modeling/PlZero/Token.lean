import PlZero.Position

set_option autoImplicit false

namespace PlZero

inductive TokenKind
  | invalid
  | eof
  | dot
  | comma
  | semicolon
  | question
  | bang
  | equal
  | assign
  | hash
  | less
  | greater
  | lessEqual
  | greaterEqual
  | plus
  | minus
  | star
  | slash
  | leftParen
  | rightParen
  | name
  | number
  | float
  | string
  | constWord
  | varWord
  | procedureWord
  | callWord
  | beginWord
  | endWord
  | ifWord
  | thenWord
  | oddWord
  | whileWord
  | doWord
  | intWord
  | floatWord
  | stringWord
deriving DecidableEq, Inhabited

namespace TokenKind

def label : TokenKind → String
  | invalid => "INVALID"
  | eof => "EOF"
  | dot => "DOT"
  | comma => "COMMA"
  | semicolon => "SEMICOLON"
  | question => "QUESTION"
  | bang => "BANG"
  | equal => "EQ"
  | assign => "ASSIGN"
  | hash => "HASH"
  | less => "LT"
  | greater => "GT"
  | lessEqual => "LE"
  | greaterEqual => "GE"
  | plus => "PLUS"
  | minus => "SUB"
  | star => "MULT"
  | slash => "DIV"
  | leftParen => "LPAREN"
  | rightParen => "RPAREN"
  | name => "IDENT"
  | number => "NUMBER"
  | float => "FLOAT"
  | string => "STRING"
  | constWord => "CONST"
  | varWord => "VAR"
  | procedureWord => "PROCEDURE"
  | callWord => "CALL"
  | beginWord => "BEGIN"
  | endWord => "END"
  | ifWord => "IF"
  | thenWord => "THEN"
  | oddWord => "ODD"
  | whileWord => "WHILE"
  | doWord => "DO"
  | intWord => "INT"
  | floatWord => "FLOAT_TYPE"
  | stringWord => "STRING_TYPE"

def all : List TokenKind :=
  [invalid, eof, dot, comma, semicolon, question, bang, equal, assign, hash, less, greater,
    lessEqual, greaterEqual, plus, minus, star, slash, leftParen, rightParen, name, number, float,
    string, constWord, varWord, procedureWord, callWord, beginWord, endWord, ifWord, thenWord,
    oddWord, whileWord, doWord, intWord, floatWord, stringWord]

def ofLabel? (text : String) : Option TokenKind := all.find? (·.label == text)

end TokenKind

def keywords : List (String × TokenKind) :=
  [("const", .constWord), ("var", .varWord), ("procedure", .procedureWord), ("call", .callWord),
    ("begin", .beginWord), ("end", .endWord), ("if", .ifWord), ("then", .thenWord),
    ("odd", .oddWord), ("while", .whileWord), ("do", .doWord), ("int", .intWord),
    ("float", .floatWord), ("string", .stringWord)]

def TokenKind.ofWord (word : List Char) : TokenKind :=
  (keywords.lookup (String.ofList (word.map Char.toLower))).getD .name

structure Token where
  kind : TokenKind
  text : String
  pos : Position
deriving DecidableEq, Inhabited

def Token.describe (t : Token) : String := s!"Token({t.kind.label}, {t.text})"

end PlZero
