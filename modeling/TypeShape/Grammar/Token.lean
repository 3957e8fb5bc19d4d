import TypeShape.Text.Quoted

/-!
# Tokens and errors of type expressions

The tokens of a type expression, each with the place where it starts, and the ways in which a
text can fail to be one.  Places are counted in bytes of UTF-8 from the start of the text.

Main definitions: `TokenKind`, `Token`, `SyntaxError`, `SyntaxError.message`.
-/

namespace TypeShape

/-- A token without its place; `eof` is the end of the text. -/
inductive TokenKind where
  | ident (name : String)
  | integer (value : Int)
  | str (text : String)
  | symbol (name : String)
  | colonColon
  | colon
  | lparen
  | rparen
  | lbracket
  | rbracket
  | lbrace
  | rbrace
  | comma
  | pipe
  | amp
  | question
  | star
  | starStar
  | arrow
  | fatArrow
  | caret
  | lt
  | eof
deriving DecidableEq, Inhabited

/-- How a token is named in an error message. -/
def TokenKind.describe : TokenKind → String
  | ident name => "Ident(" ++ Text.quote name ++ ")"
  | integer value => "Integer(" ++ toString value ++ ")"
  | str text => "Str(" ++ Text.quote text ++ ")"
  | symbol name => "Symbol(" ++ Text.quote name ++ ")"
  | colonColon => "ColonColon"
  | colon => "Colon"
  | lparen => "LParen"
  | rparen => "RParen"
  | lbracket => "LBracket"
  | rbracket => "RBracket"
  | lbrace => "LBrace"
  | rbrace => "RBrace"
  | comma => "Comma"
  | pipe => "Pipe"
  | amp => "Amp"
  | question => "Question"
  | star => "Star"
  | starStar => "StarStar"
  | arrow => "Arrow"
  | fatArrow => "FatArrow"
  | caret => "Caret"
  | lt => "Lt"
  | eof => "Eof"

/-- A token and the place where it starts. -/
structure Token where
  kind : TokenKind
  offset : Nat
deriving DecidableEq, Inhabited

/-! ## Errors -/

/-- A mark that the grammar requires at one place. -/
inductive Expected where
  | typeParamsEnd
  | arrow
  | paramsEnd
  | selfColon
  | selfEnd
  | blockArrow
  | blockEnd
  | procArrow
  | listEnd
  | recordEnd
  | parenEnd
  | singletonStart
  | singletonEnd
deriving DecidableEq, Inhabited

/-- The wording for a required mark. -/
def Expected.describe : Expected → String
  | typeParamsEnd => "`]` after type parameters"
  | arrow => "`->`"
  | paramsEnd => "`)` after parameters"
  | selfColon => "`:`"
  | selfEnd => "`]`"
  | blockArrow => "`->` in block"
  | blockEnd => "`\x7d` after block"
  | procArrow => "`->` in proc type"
  | listEnd => "closing bracket"
  | recordEnd => "`\x7d` after record"
  | parenEnd => "`)`"
  | singletonStart => "`(` after singleton"
  | singletonEnd => "`)` after singleton name"

/-- Why a text is not a type expression. -/
inductive SyntaxCause where
  | badInteger (text : String)
  | unterminated
  | badChar (c : Char)
  | missing (what : Expected)
  | notIdent (found : TokenKind)
  | notKey (found : TokenKind)
  | notType (found : TokenKind)
  | notSelf (found : String)
  | variableArgs (name : String)
  | trailing (found : TokenKind)
deriving DecidableEq, Inhabited

/-- The wording of a cause, without its place. -/
def SyntaxCause.describe : SyntaxCause → String
  | badInteger text => "invalid integer literal `" ++ text ++ "`"
  | unterminated => "unterminated string literal"
  | badChar c => "unexpected character `" ++ String.singleton c ++ "`"
  | missing what => "expected " ++ what.describe
  | notIdent found => "expected identifier, found " ++ found.describe
  | notKey found => "expected a record key, found " ++ found.describe
  | notType found => "expected a type, found " ++ found.describe
  | notSelf found => "expected `self:` binding, found " ++ found
  | variableArgs name => "type variable `" ++ name ++ "` takes no arguments"
  | trailing found => "unexpected trailing token " ++ found.describe

/-- A cause and the place it is reported at. -/
structure SyntaxError where
  cause : SyntaxCause
  offset : Nat
deriving DecidableEq, Inhabited

/-- The wording of an error. -/
def SyntaxError.message (e : SyntaxError) : String :=
  e.cause.describe ++ " at offset " ++ toString e.offset

end TypeShape
