/-!
# Kinds of tokens

A grammar source is made of a closed set of token kinds. Comments other than doc comments and
whitespace are *hidden*: the reader of the grammar never sees them, only the layout does. All other
kinds are on the main channel.

Keywords are spelled in lower case and would otherwise be rule names, so `Kind.ofWord` decides
between the two from the whole word.
-/

namespace GrammarLayout

/-- Main tokens are seen by the reader of the grammar, hidden ones only by the layout. -/
inductive Channel
  | main
  | hidden
  deriving DecidableEq, Repr

/-- The name of a channel. -/
def Channel.name : Channel → String
  | .main => "Main"
  | .hidden => "Hidden"

/-- Every kind of token a stream can hold. -/
inductive Kind
  | docComment
  | blockComment
  | lineComment
  | whitespace
  | int
  | stringLiteral
  | charSet
  | tokenRef
  | ruleRef
  | kwGrammar
  | kwLexer
  | kwParser
  | kwFragment
  | kwImport
  | kwReturns
  | kwLocals
  | kwThrows
  | kwCatch
  | kwFinally
  | kwMode
  | kwOptions
  | kwTokens
  | kwChannels
  | kwPublic
  | kwPrivate
  | kwProtected
  | colon
  | colonColon
  | comma
  | semi
  | lparen
  | rparen
  | lbrace
  | rbrace
  | arrow
  | lt
  | gt
  | assign
  | question
  | star
  | plus
  | plusAssign
  | bar
  | dollar
  | dot
  | range
  | atSign
  | pound
  | tilde
  | beginAction
  | actionContent
  | endAction
  | unknown
  | eof
  deriving DecidableEq, Repr

namespace Kind

/-- Every kind, in the order of declaration. -/
def all : List Kind :=
  [docComment, blockComment, lineComment, whitespace, int, stringLiteral, charSet, tokenRef,
   ruleRef, kwGrammar, kwLexer, kwParser, kwFragment, kwImport, kwReturns, kwLocals, kwThrows,
   kwCatch, kwFinally, kwMode, kwOptions, kwTokens, kwChannels, kwPublic, kwPrivate, kwProtected,
   colon, colonColon, comma, semi, lparen, rparen, lbrace, rbrace, arrow, lt, gt, assign, question,
   star, plus, plusAssign, bar, dollar, dot, range, atSign, pound, tilde, beginAction,
   actionContent, endAction, unknown, eof]

/-- No kind is missing from the list of all kinds. -/
theorem mem_all (k : Kind) : k ∈ all := by cases k <;> decide

/-- The name of a kind. -/
def name : Kind → String
  | docComment => "DocComment"
  | blockComment => "BlockComment"
  | lineComment => "LineComment"
  | whitespace => "Whitespace"
  | int => "Int"
  | stringLiteral => "StringLiteral"
  | charSet => "CharSet"
  | tokenRef => "TokenRef"
  | ruleRef => "RuleRef"
  | kwGrammar => "Grammar"
  | kwLexer => "Lexer"
  | kwParser => "Parser"
  | kwFragment => "Fragment"
  | kwImport => "Import"
  | kwReturns => "Returns"
  | kwLocals => "Locals"
  | kwThrows => "Throws"
  | kwCatch => "Catch"
  | kwFinally => "Finally"
  | kwMode => "Mode"
  | kwOptions => "Options"
  | kwTokens => "Tokens"
  | kwChannels => "Channels"
  | kwPublic => "Public"
  | kwPrivate => "Private"
  | kwProtected => "Protected"
  | colon => "Colon"
  | colonColon => "ColonColon"
  | comma => "Comma"
  | semi => "Semi"
  | lparen => "LParen"
  | rparen => "RParen"
  | lbrace => "LBrace"
  | rbrace => "RBrace"
  | arrow => "RArrow"
  | lt => "Lt"
  | gt => "Gt"
  | assign => "Assign"
  | question => "Question"
  | star => "Star"
  | plus => "Plus"
  | plusAssign => "PlusAssign"
  | bar => "Or"
  | dollar => "Dollar"
  | dot => "Dot"
  | range => "Range"
  | atSign => "At"
  | pound => "Pound"
  | tilde => "Not"
  | beginAction => "BeginAction"
  | actionContent => "ActionContent"
  | endAction => "EndAction"
  | unknown => "Unknown"
  | eof => "Eof"

/-- The kind with a given name. -/
def ofName? (s : String) : Option Kind := all.find? (·.name == s)

/-- Plain comments and whitespace are hidden, everything else is on the main channel. -/
def channel : Kind → Channel
  | blockComment | lineComment | whitespace => .hidden
  | _ => .main

/-- Whether tokens of this kind are hidden from the reader of the grammar. -/
def isHidden (k : Kind) : Bool := k.channel == .hidden

/-- Whether braces after this kind hold further structure rather than an action. -/
def introducesBlock : Kind → Bool
  | kwOptions | kwTokens | kwChannels => true
  | _ => false

/-- Whether this kind is part of an embedded action. -/
def isActionPiece : Kind → Bool
  | beginAction | actionContent | endAction => true
  | _ => false

/-- The keywords with their kinds. -/
def keywords : List (List Char × Kind) :=
  [("grammar".toList, kwGrammar), ("lexer".toList, kwLexer), ("parser".toList, kwParser),
   ("fragment".toList, kwFragment), ("import".toList, kwImport), ("returns".toList, kwReturns),
   ("locals".toList, kwLocals), ("throws".toList, kwThrows), ("catch".toList, kwCatch),
   ("finally".toList, kwFinally), ("mode".toList, kwMode), ("options".toList, kwOptions),
   ("tokens".toList, kwTokens), ("channels".toList, kwChannels), ("public".toList, kwPublic),
   ("private".toList, kwPrivate), ("protected".toList, kwProtected)]

/-- The kind of a word that starts with a lower-case letter: a keyword if the whole word is one,
else a rule name. -/
def ofWord (word : List Char) : Kind := (keywords.lookup word).getD ruleRef

/-- The kind of a character that is a token by itself, where no longer token starts with it. -/
def ofPunctuation? : Char → Option Kind
  | ':' => some colon
  | ',' => some comma
  | ';' => some semi
  | '(' => some lparen
  | ')' => some rparen
  | '\x7d' => some rbrace
  | '<' => some lt
  | '>' => some gt
  | '=' => some assign
  | '?' => some question
  | '*' => some star
  | '+' => some plus
  | '|' => some bar
  | '$' => some dollar
  | '.' => some dot
  | '@' => some atSign
  | '#' => some pound
  | '~' => some tilde
  | _ => none

/-- The kind of two characters that form one token, given the first and the second. -/
def ofPair? : Char → Char → Option Kind
  | ':', ':' => some colonColon
  | '-', '>' => some arrow
  | '+', '=' => some plusAssign
  | '.', '.' => some range
  | _, _ => none

end Kind

end GrammarLayout
