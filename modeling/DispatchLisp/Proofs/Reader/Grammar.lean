import DispatchLisp.Proofs.Number.Spelling
import DispatchLisp.Proofs.Text.Longest
import DispatchLisp.Reader.Parse

/-!
# Proofs.Reader.Grammar — what an expression is, apart from how it is read

The grammar says which texts stand for which forms. A relation of a text, a form and a rest holds
when an expression for the form stands at the front of the text and the rest follows it. Tokens
are the longest texts of their kind, and the kind is decided by the first characters. Expressions
carry how deep their brackets are, because a reader can only go so deep.
-/

namespace DispatchLisp

namespace Grammar

/-! ## Strings -/

/-- The inside of a string between two quotes, and the text that it stands for: characters other
than the quote and the backslash, and characters behind a backslash. -/
inductive StringBody (quote : Char) : List Char → List Char → Prop where
  | nil : StringBody quote [] []
  | plain {c : Char} {body text : List Char} : c ≠ quote → c ≠ '\x5c' →
      StringBody quote body text → StringBody quote (c :: body) (c :: text)
  | escaped {c : Char} {body text : List Char} :
      StringBody quote body text →
      StringBody quote ('\x5c' :: c :: body) (StringLiteral.named c :: text)

/-- Whether a lexeme is a quoted string for a text. -/
def IsStringOf (text lexeme : List Char) : Prop :=
  ∃ quote body, isQuote quote = true ∧ lexeme = quote :: (body ++ [quote]) ∧
    StringBody quote body text

/-- Whether a lexeme is a quoted string. -/
def IsString (lexeme : List Char) : Prop :=
  ∃ text, IsStringOf text lexeme

/-! ## Names -/

/-- Whether a lexeme has the characters of a symbol. -/
def IsSymbol (lexeme : List Char) : Prop :=
  ∃ c others, lexeme = c :: others ∧ isNameStart c = true ∧ ∀ d ∈ others, isNameChar d = true

/-- Whether a lexeme has the characters of a keyword, of which the colon is the first. -/
def IsKeyword (lexeme : List Char) : Prop :=
  ∃ c others, lexeme = ':' :: c :: others ∧ isNameStart c = true ∧ c ≠ ':' ∧
    ∀ d ∈ others, isNameChar d = true

/-! ## Tokens -/

/-- A token at the front of a text. A quote announces a string, a digit or a minus sign with a
digit a number, a colon a keyword, and everything else a symbol. -/
inductive Token : List Char → Form → List Char → Prop where
  | string {text lexeme rest value : List Char} :
      Longest IsString text lexeme rest → IsStringOf value lexeme →
      Token text (.string (String.ofList value)) rest
  | number {text rest : List Char} {n : NumberSpelling} {form : Form} :
      startsNumber text = true → Longest IsNumber text n.text rest → n.Valid →
      endsNumber rest = true → n.form? = some form → Token text form rest
  | keyword {text name rest : List Char} :
      Longest IsKeyword text (':' :: name) rest → Token text (.keyword (String.ofList name)) rest
  | symbol {text lexeme rest : List Char} :
      startsNumber text = false → text.head? ≠ some ':' → Longest IsSymbol text lexeme rest →
      Token text (.symbol (String.ofList lexeme)) rest

/-! ## Between tokens -/

/-- Whether a text ends its line at once. -/
def EndsLine : List Char → Prop
  | [] => True
  | c :: _ => c = '\n'

/-- Blanks and comments at the front of a text, any number of them, and what follows them. A
comment starts with a semicolon and goes on to the end of its line. -/
inductive Blanks : List Char → List Char → Prop where
  | none (text : List Char) : Blanks text text
  | blank {c : Char} {text rest : List Char} :
      isBlank c = true → Blanks text rest → Blanks (c :: text) rest
  | comment {body text rest : List Char} :
      '\n' ∉ body → EndsLine text → Blanks text rest → Blanks (';' :: (body ++ text)) rest

/-! ## Expressions -/

mutual

/-- An expression at the front of a text: a token, or a bracket with items inside. The number says
how deep brackets are, with the token inside them. -/
inductive Expr : Nat → List Char → Form → List Char → Prop where
  | token {text rest : List Char} {form : Form} : Token text form rest → Expr 1 text form rest
  | bracket {depth : Nat} {text rest : List Char} {items : List Form} {form : Form} (b : Bracket) :
      Items depth b text items rest → b.form? items = some form →
      Expr (depth + 1) (b.opener :: text) form rest

/-- The items inside a bracket at the front of a text, with the closing character. -/
inductive Items : Nat → Bracket → List Char → List Form → List Char → Prop where
  | close {b : Bracket} {text rest : List Char} :
      Blanks text (b.closer :: rest) → Items 0 b text [] rest
  | item {depth others : Nat} {b : Bracket} {text front after rest : List Char} {form : Form}
      {items : List Form} :
      Blanks text front → Expr depth front form after → Items others b after items rest →
      Items (max depth others) b text (form :: items) rest

end

/-- A text with one expression, and nothing but blanks and comments around it. -/
def Document (depth : Nat) (text : String) (form : Form) : Prop :=
  ∃ front rest, Blanks text.toList front ∧ Expr depth front form rest ∧ Blanks rest []

end Grammar

end DispatchLisp
