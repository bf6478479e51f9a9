/-
Key paths as an editor writes them: with dots, and without the namespace that is
in scope already.
-/
import KeyTrace.Text

namespace KeyTrace.KeyPath

/-- The delimiter of key paths. -/
def dot : Text := [cp '.']

/-- A delimiter that is set; an empty one is not. -/
def delimiterOr (d : Option Text) : Text :=
  match d with
  | some (c :: cs) => c :: cs
  | _ => dot

/-- The key with a dot for every delimiter. -/
def dotted (delimiter key : Text) : Text := Text.replaceAll delimiter dot key

/-- The key with dots for delimiters, without the namespace if it starts with it. The check looks
at the dotted namespace, and the cut is as long as the namespace and one delimiter. -/
def rewrite (delimiter : Text) (ns : Option Text) (key : Text) : Text :=
  let plain := dotted delimiter key
  match ns with
  | some (c :: cs) =>
    if Text.occursIn delimiter key && Text.startsWith plain (dotted delimiter (c :: cs)) then
      plain.drop ((c :: cs).length + 1)
    else plain
  | _ => plain

/-- What lists of parts end in, the last part alone first. -/
def endingsOf : List Text → List Text
  | [] => []
  | p :: ps => endingsOf ps ++ [Text.join dot (p :: ps)]

/-- What a key path ends in, the last part alone first. -/
def endings (keypath : Text) : List Text := endingsOf (Text.splitOn dot keypath)

/-- A call that looks a key up. -/
def lookupCall (key : Text) : Text := text "t('" ++ key ++ text "')"

/-- What may replace a text in markup and in code, the namespace in scope being unknown. -/
def snippets (keypath : Text) : List Text :=
  (endings keypath).map (fun k => [cp '\x7b'] ++ lookupCall k ++ [cp '\x7d'])
    ++ (endings keypath).map lookupCall

end KeyTrace.KeyPath
