/-
The languages whose documents are looked into, and the language of a file by its
extension.
-/
import KeyTrace.Path

namespace KeyTrace.Language

/-- The languages that are looked into. -/
def supported : List Text :=
  ["javascript", "typescript", "javascriptreact", "typescriptreact", "ejs"].map text

/-- The languages of extensions. -/
def ofExtension : List (Text × Text) :=
  [(".js", "javascript"), (".mjs", "javascript"), (".cjs", "javascript"),
   (".jsx", "javascriptreact"), (".ts", "typescript"), (".mts", "typescript"),
   (".cts", "typescript"), (".tsx", "typescriptreact"), (".ejs", "ejs")].map
  fun p => (text p.1, text p.2)

/-- Small letters for capital ones of the English alphabet. -/
def lower (t : Text) : Text := t.map fun c => if isUpperLetter c then c + 32 else c

/-- The language of a file, by its extension in any case of letters. -/
def ofFile? (file : Text) : Option Text := ofExtension.lookup (lower (Path.ofText file).suffix)

/-- The language that a document is said to be in, or else that of its file. -/
def said (languageId : Option Text) (file : Text) : Option Text :=
  match languageId with
  | some (c :: cs) => some (c :: cs)
  | _ => ofFile? file

/-- A document is looked into. -/
def supports (languageId : Option Text) (file : Text) : Bool :=
  match said languageId file with
  | some l => supported.contains l
  | none => false

end KeyTrace.Language
