import EnumForms.Decimal

/-!
The journal of a transformation: what was done, step by step.
-/
namespace EnumForms

inductive Event where
  | rejected (line : Int)
  | duplicated (name : Text) (line : Int)
  | accepted (name : Text) (entries : Nat)
  | discarded (name : Text) (line : Int)
  | generated (name : Text) (arity : Int)
  | unchanged (file : Text)
  | transformed (file : Text) (enums functions warnings : Nat)
  | failed (file : Text) (errors : Nat)
  deriving DecidableEq

abbrev Journal := List Event

namespace Event

def level : Event → Text
  | .unchanged _ | .transformed .. | .failed .. => lit "INFO"
  | _ => lit "DEBUG"

def topic : Event → Text
  | .rejected _ | .duplicated .. | .accepted .. | .discarded .. => lit "eenum.semantic.table_builder"
  | .generated .. => lit "eenum.semantic.synthesizer"
  | .unchanged _ | .transformed .. | .failed .. => lit "eenum.compiler"

def message : Event → Text
  | .rejected l => lit "Declaracao -enum invalida na linha " ++ Decimal.ofInt l
  | .duplicated name l => lit "Enum " ++ name ++ lit " duplicado na linha " ++ Decimal.ofInt l
  | .accepted name n => lit "Enum " ++ name ++ lit " com " ++ Decimal.ofNat n ++ lit " entradas"
  | .discarded name l => lit "Enum " ++ name ++ lit " descartado na linha " ++ Decimal.ofInt l
  | .generated name arity => lit "Funcao sintetizada " ++ name ++ lit "/" ++ Decimal.ofInt arity
  | .unchanged file => file ++ lit ": nenhum enum valido, unidade inalterada"
  | .transformed file enums functions warnings =>
    file ++ lit ": " ++ Decimal.ofNat enums ++ lit " enums, " ++ Decimal.ofNat functions ++
      lit " funcoes geradas, " ++ Decimal.ofNat warnings ++ lit " avisos"
  | .failed file errors =>
    file ++ lit ": transformacao falhou com " ++ Decimal.ofNat errors ++ lit " erros"

def text (e : Event) : Text := e.level ++ lit " " ++ e.topic ++ lit ": " ++ e.message

def numbers : Event → List Int
  | .rejected l | .duplicated _ l | .discarded _ l => [l]
  | .accepted _ n | .failed _ n => [n]
  | .generated _ arity => [arity]
  | .unchanged _ => []
  | .transformed _ enums functions warnings => [enums, functions, warnings]

/-- What is told of an event. A number with too many digits is not written; instead there is a notice,
of which this is the head, and a trace below it, which is left out here. -/
def told (e : Event) : Text :=
  if e.numbers.any Decimal.isOverlong then lit "--- Logging error ---" else e.text

end Event

end EnumForms
