import Reflector.Emission
import Reflector.Proofs.Search

namespace Reflector

/-- Pieces without the character that ends each of them can be read back. -/
private theorem flatMap_concat_inj {c : Char} {pieces pieces' : List (List Char)}
    (h : pieces.flatMap (· ++ [c]) = pieces'.flatMap (· ++ [c])) (hp : ∀ piece ∈ pieces, c ∉ piece)
    (hp' : ∀ piece ∈ pieces', c ∉ piece) : pieces = pieces' := by
  induction pieces generalizing pieces' with
  | nil =>
    cases pieces' with
    | nil => rfl
    | cons piece' pieces' => simp at h
  | cons piece pieces ih =>
    cases pieces' with
    | nil => simp at h
    | cons piece' pieces' =>
      obtain ⟨hpiece, hpieces⟩ := List.forall_mem_cons.mp hp
      obtain ⟨hpiece', hpieces'⟩ := List.forall_mem_cons.mp hp'
      simp only [List.flatMap_cons, List.append_assoc, List.singleton_append] at h
      obtain ⟨rfl, hrest⟩ := Text.first_unique h hpiece hpiece'
      rw [ih hrest hpieces hpieces']

theorem flatMap_cons_inj {c : Char} {pieces pieces' : List (List Char)}
    (h : pieces.flatMap (c :: ·) = pieces'.flatMap (c :: ·)) (hp : ∀ piece ∈ pieces, c ∉ piece)
    (hp' : ∀ piece ∈ pieces', c ∉ piece) : pieces = pieces' := by
  have hturn : ∀ pieces : List (List Char),
      pieces.flatMap (c :: ·) ++ [c] = c :: pieces.flatMap (· ++ [c]) := by
    intro pieces
    induction pieces with
    | nil => rfl
    | cons piece pieces ih => simp [ih]
  have hends := congrArg (· ++ [c]) h
  simp only [hturn, List.cons.injEq, true_and] at hends
  exact flatMap_concat_inj hends hp hp'

namespace Emission

private theorem toList_ofLines (lines : List String) :
    (ofLines lines).toList = (lines.map String.toList).flatMap (· ++ ['\n']) := by
  simp [ofLines, String.toList_join, List.flatMap_map]

theorem ofLines_inj {lines lines' : List String} (h : ofLines lines = ofLines lines')
    (hl : ∀ line ∈ lines, '\n' ∉ line.toList) (hl' : ∀ line ∈ lines', '\n' ∉ line.toList) :
    lines = lines' := by
  have htext := congrArg String.toList h
  rw [toList_ofLines, toList_ofLines] at htext
  have hlists := flatMap_concat_inj htext (List.forall_mem_map.mpr hl) (List.forall_mem_map.mpr hl')
  exact (List.map_inj_right fun _ _ => String.toList_inj.mp).mp hlists

/-- A name that stands twice in a line can be read back, whatever it contains. -/
private theorem eq_of_twice {front inside back name name' : List Char}
    (h : front ++ (name ++ (inside ++ (name ++ back))) =
      front ++ (name' ++ (inside ++ (name' ++ back)))) : name = name' := by
  have hrest := List.append_cancel_left h
  have hlength := congrArg List.length hrest
  simp only [List.length_append] at hlength
  exact List.append_inj_left hrest (by omega)

private theorem toList_memberLine (front name member : String) :
    (front ++ member ++ "\", &" ++ name ++ "::" ++ member ++ ");").toList =
      front.toList ++ (member.toList ++ (("\", &" ++ name ++ "::").toList ++
        (member.toList ++ ");".toList))) := by
  simp only [String.toList_append, List.append_assoc]

theorem propertyLine_injective (name : String) : Function.Injective (propertyLine name) := by
  intro field field' h
  have htext := congrArg String.toList h
  unfold propertyLine at htext
  rw [toList_memberLine, toList_memberLine] at htext
  exact String.toList_inj.mp (eq_of_twice htext)

theorem methodLine_injective (name : String) : Function.Injective (methodLine name) := by
  intro method method' h
  have htext := congrArg String.toList h
  unfold methodLine at htext
  rw [toList_memberLine, toList_memberLine] at htext
  exact String.toList_inj.mp (eq_of_twice htext)

theorem attributeLine_injective : Function.Injective attributeLine := by
  intro field field' h
  have htext := congrArg String.toList h
  unfold attributeLine at htext
  simp only [String.toList_append, List.append_assoc] at htext
  exact String.toList_inj.mp (eq_of_twice htext)

def classLine (record : ClassRecord) : String :=
  "  auto c = class_<" ++ record.name ++ String.join (record.bases.map ("," ++ ·)) ++ ">(\"" ++
    record.name ++ "\");"

/-- The first characters of a line, which tell what it is for. -/
def opening (line : String) : List Char :=
  line.toList.take 10

@[simp] theorem opening_propertyLine (name field : String) :
    opening (propertyLine name field) = "  c.proper".toList := by
  unfold propertyLine
  simp [opening]

@[simp] theorem opening_methodLine (name method : String) :
    opening (methodLine name method) = "  c.method".toList := by
  unfold methodLine
  simp [opening]

@[simp] theorem opening_classLine (record : ClassRecord) :
    opening (classLine record) = "  auto c =".toList := by
  unfold classLine
  simp [opening]

@[simp] theorem opening_attributeLine (field : String) :
    opening (attributeLine field) = "  static c".toList := by
  unfold attributeLine
  simp [opening]

@[simp] theorem opening_blockStart : opening " \x7b" = [' ', '\x7b'] := rfl

@[simp] theorem opening_blockEnd : opening " \x7d" = [' ', '\x7d'] := rfl

/-- The methods that are registered of a class: its own, and those that save and load it. -/
def registeredMethods (record : ClassRecord) : List String :=
  record.methods ++ ["save", "load"]

theorem registrationBlock_eq (record : ClassRecord) : registrationBlock record =
    " \x7b" :: classLine record :: (record.fields.map (propertyLine record.name) ++
      ((registeredMethods record).map (methodLine record.name) ++ [" \x7d"])) := by
  unfold registrationBlock classLine registeredMethods
  simp only [List.map_append, List.map_cons, List.map_nil, List.append_assoc, List.cons_append,
    List.nil_append]

end Emission

end Reflector
