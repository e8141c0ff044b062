import EnumForms.Folder
import EnumForms.Node
import EnumForms.Term.Inspect
import EnumForms.Text.Lines
import EnumForms.Text.Uppercase

/-!
What is said about a text that is not read: where it goes wrong, the lines around the place, and
what would have fitted or is to be checked.
-/
namespace EnumForms

namespace Kind

def description : Kind → Text
  | .finish => lit "fim do arquivo"
  | .literal .atom => lit "atomo"
  | .literal .quotedAtom => lit "atomo entre aspas simples"
  | .literal .int => lit "inteiro"
  | .literal .basedInt => lit "inteiro com base"
  | .literal .float => lit "float"
  | .literal .char => lit "caractere $c"
  | .string => lit "texto entre aspas"
  | .openTuple => lit "'\x7b'"
  | .closeTuple => lit "'\x7d'"
  | .openList => lit "'['"
  | .closeList => lit "']'"
  | .comma => lit "','"
  | .bar => lit "'|'"
  | .dot => lit "'.'"

end Kind

namespace Message

def location (file : Text) (line column : Int) : Text :=
  Path.normalize file ++ lit ":" ++ Decimal.ofInt line ++ lit ":" ++ Decimal.ofInt column

def headline (file : Text) (line column : Int) (what : Text) : Text :=
  lit "erro: " ++ location file line column ++ lit ": " ++ what

def indent (column : Int) : Text := Text.spaces (max column 1 - 1).toNat

def missingDot (source file : Text) (line column : Int) : Text :=
  headline file line column (lit "Cada forma deve terminar com '.'\n    ") ++ source.line line ++
    lit "\n    " ++ indent column ++ lit "^ falta '.' antes daqui\n\nExemplo:\n" ++
    lit "    \x7battribute,1,module,colors\x7d.\n    \x7beof,2\x7d."

def context (source : Text) (n : Int) : Text :=
  let ls := source.window n
  if ls.length < 2 then ls.flatMap fun l => lit "    " ++ l ++ lit "\n"
  else
    let first := max 1 (n - 1)
    lit "\nContexto:\n" ++ (ls.zipIdx.flatMap fun (l, i) =>
      (if first + i = n then lit ">>>" else lit "   ") ++ lit " " ++ l ++ lit "\n")

def description (name : Text) : Text := ((Kind.ofName? name).map Kind.description).getD name

def expectation (expected : List Text) : Text :=
  if expected = [] then []
  else
    lit "\nEsperado: " ++ Text.join (lit ", ") ((expected.take 5).map description) ++
      if 5 < expected.length then
        lit " (e " ++ Decimal.ofNat (expected.length - 5) ++ lit " outros)"
      else []

/-- The dot after a form is missing if one was expected and a tuple starts or the text ends. -/
def isMissingDot (kind : Text) (expected : List Text) : Bool :=
  expected.contains Kind.dot.name && (kind == Kind.openTuple.name || kind == Kind.finish.name)

def token (source file kind text : Text) (line column : Int) (expected : List Text) : Text :=
  if isMissingDot kind expected then missingDot source file line column
  else
    let shown := if text = [] then lit "<EOF>" else text.inspect
    Text.trimRight <|
      headline file line column (lit "Token inesperado " ++ shown ++ lit "\n") ++
        context source line ++ expectation expected

def character (source file : Text) (c : CodePoint) (line column : Int) : Text :=
  Text.trimRight <|
    headline file line column (lit "Caractere inesperado " ++ Text.inspect [c] ++ lit "\n    ") ++
      source.line line ++ lit "\n    " ++ indent column ++ lit "^ aqui\n\nVerifique:\n" ++
      (if c = .quotation ∨ c = .apostrophe then lit "  - Aspas abertas mas nao fechadas\n" else []) ++
      (if c.isUpperCase ∨ c.is '_' then
        lit "  - Atomos iniciados em maiuscula precisam de aspas simples: 'Nome'\n" else []) ++
      lit "  - Caracteres fora da sintaxe de termos Erlang\n"

def unfinished (source file : Text) : Text :=
  let ls := if source.lines = [] then [[]] else source.lines
  let l := ls.getLast?.getD []
  headline file ls.length (l.length + 1) (lit "Fim de arquivo inesperado\n    ") ++ l ++
    lit "\n\nVerifique se todos os '\x7b', '[' e aspas foram fechados."

def other (file : Text) (words : Text) : Text := lit "erro: " ++ file ++ lit ": " ++ words

end Message

def Defect.message : Defect → Text
  | .escapeOutOfRange => lit "Escape de caractere fora do intervalo Unicode"
  | .baseOutOfRange base t =>
    lit "Base " ++ Decimal.ofNat base ++ lit " fora do intervalo 2..36 em " ++ t
  | .badDigits base t =>
    lit "Digitos invalidos para a base " ++ Decimal.ofNat base ++ lit " em " ++ t
  | .improperList => lit "Listas improprias nao sao suportadas"

structure SyntaxReport where
  message : Text
  file : Text
  place : Place
  expected : Option (List Kind)

namespace SyntaxReport

def noFile : Text := lit "<string>"

def text (r : SyntaxReport) : Text :=
  Message.location r.file r.place.line r.place.column ++ lit ": " ++ r.message

end SyntaxReport

/-- The report of an error. What is no error of the grammar or of a term has none. -/
def ReadError.report? (source file : Text) : ReadError → Option SyntaxReport
  | .unexpectedToken t expected =>
    some ⟨Message.token source file t.kind.name t.text t.place.line t.place.column
        (expected.map Kind.name),
      Path.normalize file, t.place, if expected = [] then none else some expected⟩
  | .unexpectedCharacter c p =>
    some ⟨Message.character source file c p.line p.column, Path.normalize file, p, none⟩
  | .defect p d =>
    some ⟨Message.headline file p.line p.column d.message, Path.normalize file, p, none⟩
  | .overlong _ | .notOneCharacter => none

end EnumForms
