import TreeDerivation.Files.Basic
import TreeDerivation.Search.Config
import TreeDerivation.Yaml.Reading

/-!
# Configuration documents

A configuration is read from a YAML or a JSON document; for a file the ending of its name decides
which.
-/

namespace TreeDerivation

/-- Reads an encoding; a switch that is not given is on. -/
def Encoding.ofYaml? (d : Yaml.Document) (n : Yaml.Node) : Option Encoding := do
  let [retain, split] ← d.parts? ["retain_variadic_fields", "split_non_terminal"] n | none
  return ⟨← retain.elim (some true) d.bool?, ← split.elim (some true) d.bool?⟩

namespace Config

/-- Reads a configuration; a part that is not given has its default. -/
def ofYaml? (d : Yaml.Document) : Option Config := do
  let [beam, steps, encoding] ← d.parts? ["beam_size", "max_steps", "options"] d.root | none
  return {
    beamSize := ← beam.elim (some 10) d.nat?
    maxSteps := ← steps.elim (some none) (d.nullable? d.nat?)
    encoding := ← encoding.elim (some {}) (Encoding.ofYaml? d) }

/-- Reads and validates a YAML document. -/
def ofYamlText (text : String) : Except Failure Config :=
  match (Yaml.Document.read? text).bind ofYaml? with
  | some c => c.validate
  | none => .error (Failure.of (.invalidDocument .yaml))

/-- Reads and validates the text of a configuration file. -/
def ofFile (path text : String) : Except Failure Config :=
  match Path.extension? path with
  | some "yaml" | some "yml" => ofYamlText text
  | some "json" => ofJsonText text
  | _ => .error (Failure.of (.unsupportedFile path))

/-- Reads and validates a configuration file. -/
def load {m : Type → Type} [Monad m] (files : FileAccess m) (path : String) :
    m (Except Failure Config) := do
  return (← files.readText path).bind (ofFile path)

end Config

end TreeDerivation
