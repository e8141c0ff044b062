import EnumForms.Command.Line
import EnumForms.Command.Run

/-!
The command line program. What a command does is worked out elsewhere as a list of effects; here the
unit is read and the effects are carried out.
-/
namespace EnumForms

def Text.toString (t : Text) : String := String.ofList (t.map fun c => Char.ofNat c.val)

def Breakdown.message : Breakdown → Text
  | .undecodableFile => lit "arquivo nao esta em UTF-8"
  | .unencodableText => lit "texto nao representavel em UTF-8"
  | .overlongInput | .overlongOutput => lit "inteiro longo demais"
  | .wordless => lit "diagnostico desconhecido"
  | .source _ => lit "forma sem codigo fonte"
  | .write _ => lit "arquivo nao gravado"

def Path.parent (path : Text) : Text :=
  Path.root path ++ Text.join (lit "/") (Path.steps path).dropLast

namespace Effect

def put (channel : IO.FS.Stream) (t : Text) : IO Unit := do
  channel.write ⟨((Utf8.encode? t).getD []).toArray⟩
  channel.flush

def carryOut : Effect → IO Unit
  | .print t => do put (← IO.getStdout) t
  | .complain t => do put (← IO.getStderr) t
  | .makeWay path =>
    match Path.parent path with
    | [] => pure ()
    | folder => IO.FS.createDirAll folder.toString
  | .write path bytes => IO.FS.writeBinFile path.toString ⟨bytes.toArray⟩

end Effect

namespace Ending

def carryOut (path : Text) : Ending → IO UInt32
  | .exit code => pure code.toUInt32
  | .breakdown b => do
    Effect.put (← IO.getStderr) (Message.other path b.message ++ lit "\n")
    pure 1

end Ending

def usage : Text :=
  lit "Usage: enumforms [-v] check UNIT\n" ++
    lit "       enumforms [-v] render UNIT\n" ++
    lit "       enumforms [-v] transform [-o PATH] [--json PATH] [--source] [--strict] [--stats] UNIT\n"

def runArguments (args : List String) : IO UInt32 := do
  match Invocation.ofArguments? (args.map lit) with
  | none => do
    Effect.put (← IO.getStderr) usage
    pure 2
  | some i => do
    let bytes ← IO.FS.readBinFile i.command.path.toString
    let (effects, ending) := i.course bytes.toList
    effects.forM Effect.carryOut
    ending.carryOut i.command.path

end EnumForms

def main (args : List String) : IO UInt32 := EnumForms.runArguments args
