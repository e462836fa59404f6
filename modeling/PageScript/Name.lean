import PageScript.Text.Quoted

/-!
# Name — identifiers without case

Names of variables, members and procedures do not distinguish upper from lower case.  A `Name` holds
the folded spelling and the field `folded` says so: two spellings denote one name exactly if they
fold to the same text (`ofString_eq_iff`).  Folding touches the ASCII letters only.
-/

namespace PageScript

theorem toLower_toLower (c : Char) : c.toLower.toLower = c.toLower := by
  unfold Char.toLower
  grind

/-- The text with its ASCII letters in lower case; every other character stays. -/
def foldCase (text : String) : String := String.ofList (text.toList.map Char.toLower)

/-- Folding a folded text changes nothing. -/
theorem foldCase_foldCase (text : String) : foldCase (foldCase text) = foldCase text := by
  unfold foldCase
  rw [String.toList_ofList, List.map_map]
  exact congrArg (fun f => String.ofList (text.toList.map f)) (funext toLower_toLower)

/-- Whether two texts agree up to the case of ASCII letters. -/
def agreesUpToCase (a b : String) : Bool := foldCase a == foldCase b

/-- An identifier, held in its folded spelling. -/
structure Name where
  text : String
  folded : foldCase text = text
deriving DecidableEq

namespace Name

/-- The name that a spelling denotes. -/
def ofString (spelling : String) : Name := ⟨foldCase spelling, foldCase_foldCase spelling⟩

instance : Inhabited Name := ⟨ofString ""⟩

instance : ToString Name := ⟨Name.text⟩

@[ext] theorem ext {a b : Name} (h : a.text = b.text) : a = b := by
  cases a; cases b; simp_all

@[simp] theorem text_ofString (s : String) : (ofString s).text = foldCase s := rfl

@[simp] theorem ofString_text (n : Name) : ofString n.text = n := Name.ext n.folded

theorem ofString_eq_iff {s t : String} : ofString s = ofString t ↔ foldCase s = foldCase t :=
  ⟨fun h => congrArg Name.text h, fun h => Name.ext h⟩

/-- Whether a spelling denotes this name. -/
def isSpelled (n : Name) (spelling : String) : Bool := agreesUpToCase n.text spelling

/-- The order of names is that of their folded texts, character by character. -/
def compare (a b : Name) : Ordering := Ord.compare a.text b.text

/-- The tagged form, with the text in quotes. -/
def tagged (n : Name) : String := "Name(" ++ Text.quote n.text ++ ")"

end Name

end PageScript
