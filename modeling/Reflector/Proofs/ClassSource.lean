import Reflector.Generation
import Reflector.Proofs.HeaderName
import Reflector.Proofs.MemberScan
import Reflector.Proofs.WellFormed

namespace Reflector

open Text Source

def defaultKeywords : List (List Char) :=
  ({} : Config).classKeywords.map String.toList

/-- The character can stand in a unit, its braces and line feeds apart. -/
def isSourceChar (c : Char) : Bool :=
  isPlainChar c || c == '[' || c == ']'

private theorem isSourceChar_of_isPlainChar {c : Char} (h : isPlainChar c = true) :
    isSourceChar c = true := by
  rw [isSourceChar, h, Bool.true_or, Bool.true_or]

private theorem isFlat_of_isSourceChar {c : Char} (h : isSourceChar c = true) : isFlat c = true := by
  have hother : ∀ d, isSourceChar d = false → c ≠ d := fun d => ne_of_class h
  simp (disch := decide) [isFlat, hother]

private theorem isSourceChar_of_mem_markText : ∀ c ∈ markText, isSourceChar c = true :=
  List.all_eq_true.mp rfl

theorem isSourceChar_of_mem_membersText (members : List MemberDescription) :
    ∀ c ∈ membersText members, isSourceChar c = true := by
  intro c hc
  obtain ⟨member, -, hc⟩ := List.mem_flatMap.mp hc
  rw [member.source_eq] at hc
  rcases List.mem_append.mp hc with hc | hc
  · exact isSourceChar_of_mem_markText c hc
  · exact isSourceChar_of_isPlainChar (member.isPlainChar_of_mem_declText c hc)

namespace ClassDescription

def front (decl : ClassDescription) : List Char :=
  classText ++ ' ' :: markText ++ ' ' :: decl.name.chars ++ [' ']

private theorem front_eq (decl : ClassDescription) :
    decl.front = classText ++ (' ' :: markText ++ ' ' :: decl.name.chars ++ [' ']) := by
  simp [front]

def header (decl : ClassDescription) : List Char :=
  decl.front ++ ['{']

def body (decl : ClassDescription) : List Char :=
  decl.header ++ ' ' :: membersText decl.members ++ ['}']

/-- The declaration as a scan finds it at an offset. -/
def block (offset : Nat) (decl : ClassDescription) : ClassBlock where
  name := decl.name.text
  header := decl.header
  body := decl.body
  offset := offset

theorem source_eq (decl : ClassDescription) : decl.source = decl.body ++ [';', '\n'] := by
  simp [source, body, header, front, membersText]

private theorem isSourceChar_of_mem_name (decl : ClassDescription) :
    ∀ c ∈ decl.name.chars, isSourceChar c = true := by
  intro c hc
  exact isSourceChar_of_isPlainChar (isPlainChar_of_isNameChar (decl.name.isNameChar_of_mem c hc))

theorem isSourceChar_of_mem_front (decl : ClassDescription) :
    ∀ c ∈ decl.front, isSourceChar c = true := by
  have hclass : ∀ c ∈ classText, isSourceChar c = true := List.all_eq_true.mp rfl
  intro c hc
  simp only [front, List.mem_append, List.mem_cons, List.not_mem_nil, or_false] at hc
  rcases hc with ((hc | rfl | hc) | rfl | hc) | rfl
  · exact hclass c hc
  · rfl
  · exact isSourceChar_of_mem_markText c hc
  · rfl
  · exact decl.isSourceChar_of_mem_name c hc
  · rfl

private theorem header_eq_mark (decl : ClassDescription) :
    decl.header = classText ++ [' '] ++ (markText ++ (' ' :: decl.name.chars ++ [' ', '{'])) := by
  simp [header, front]

private theorem not_mem_before_mark : '[' ∉ classText ++ [' '] := by
  decide

private theorem chars_ne_classText (decl : ClassDescription) : decl.name.chars ≠ classText := by
  intro he
  have htext : decl.name.text.toList = "class".toList := he
  exact decl.ne_class (String.toList_inj.mp htext)

private theorem headerGap_mark : HeaderGap (' ' :: markText ++ [' ']) :=
  .blank rfl (.bracketed (show ']' ∉ "refl".toList by decide) (.blank rfl .nil))

private theorem headerName_header (decl : ClassDescription) :
    headerName defaultKeywords decl.header = .ok decl.name.text := by
  have htext : decl.header =
      classText ++ (' ' :: markText ++ [' ']) ++ decl.name.chars ++ [' '] ++ ['{'] := by
    simp [header, front]
  have hlead : OpensWord (classText ++ (' ' :: markText ++ [' '])) :=
    (cleans_identifier rfl).opensWord_gap headerGap_mark (List.cons_ne_nil _ _)
  have hname : isIdentifier decl.name.chars = true := decl.name.isIdentifier_text
  have hfree : decl.name.chars ∉ defaultKeywords := by
    have hkeywords : defaultKeywords = [classText] := rfl
    simp [hkeywords, decl.chars_ne_classText]
  rw [htext, headerName_identifier hlead hname (.blank rfl .nil) .brace, if_neg hfree]
  simp [Identifier.chars]

def lineGap : ClassGap defaultKeywords :=
  .ofNotInfix [';', '\n'] (by decide) fun _ hc => Option.some.inj hc ▸ isWord_lineFeed

private theorem headerName_front (decl : ClassDescription) :
    headerName defaultKeywords
      (classText ++ (' ' :: markText ++ ' ' :: decl.name.chars ++ [' ']) ++ ['{']) =
        .ok decl.name.text := by
  rw [← front_eq]
  exact decl.headerName_header

private theorem tail_begins (decl : ClassDescription) :
    ∃ c ∈ (' ' :: markText ++ ' ' :: decl.name.chars ++ [' ']).head?, isWord c = false :=
  ⟨' ', rfl, isWord_space⟩

private theorem tail_plain (decl : ClassDescription) :
    ∀ c ∈ ' ' :: markText ++ ' ' :: decl.name.chars ++ [' '],
      c ∉ ['{', '}', ';', '"', '\''] := by
  intro c hc
  have hfront : isSourceChar c = true := by
    apply decl.isSourceChar_of_mem_front
    rw [front_eq]
    exact List.mem_append_right _ hc
  have hother : ∀ d, isSourceChar d = false → c ≠ d := fun d => ne_of_class hfront
  have hsemicolon : c ≠ ';' := by
    rintro rfl
    have hmark : ';' ∉ markText := by decide
    have hname : ';' ∉ decl.name.chars := decl.name.not_mem_chars (by decide)
    simp [hmark, hname] at hc
  simp (disch := decide) [hother, hsemicolon]

private theorem nestedText_members (decl : ClassDescription) :
    NestedText '{' (' ' :: membersText decl.members) := by
  apply nestedText_of_forall_isFlat
  intro c hc
  rcases List.mem_cons.mp hc with rfl | hc
  · rfl
  · exact isFlat_of_isSourceChar (isSourceChar_of_mem_membersText decl.members c hc)

/-- The class as one of a well-formed unit. -/
def wellFormed (decl : ClassDescription) : WellFormedClass defaultKeywords where
  name := decl.name.text
  keyword := classText
  tail := ' ' :: markText ++ ' ' :: decl.name.chars ++ [' ']
  inside := ' ' :: membersText decl.members
  keyword_mem := List.mem_singleton_self classText
  tail_begins := decl.tail_begins
  tail_plain := decl.tail_plain
  headerName_eq := decl.headerName_front
  nested := decl.nestedText_members

theorem header_wellFormed (decl : ClassDescription) : decl.wellFormed.header = decl.header := by
  rw [header, front_eq]
  rfl

theorem body_wellFormed (decl : ClassDescription) : decl.wellFormed.body = decl.body := by
  rw [WellFormedClass.body, header_wellFormed]
  rfl

theorem source_wellFormed (decl : ClassDescription) :
    decl.wellFormed.body ++ lineGap.text = decl.source := by
  rw [body_wellFormed, source_eq]
  rfl

theorem isSelected_block (decl : ClassDescription) (offset : Nat) (target : String) :
    (decl.block offset).isSelected {} target = true := by
  have hfind := readsMark_markPattern.find?_mark not_mem_before_mark none
    (' ' :: decl.name.chars ++ [' ', '{'])
  have hmark : (markPattern defaultMarks).occursIn decl.header = true := by
    rw [Pattern.occursIn, header_eq_mark, hfind]
    rfl
  rw [ClassBlock.isSelected, Bool.or_eq_true]
  exact Or.inr hmark

private theorem markOffsets_block (decl : ClassDescription) (offset : Nat) :
    (decl.block offset).markOffsets defaultMarks =
      memberOffsets (byteLength (decl.header ++ [' '])) decl.members := by
  have hsplit : (splitFromByte (byteLength decl.header) decl.body).2 =
      [' '] ++ (membersText decl.members ++ ['}']) := by
    rw [body, List.append_assoc, splitFromByte_byteLength]
    rfl
  rw [ClassBlock.markOffsets]
  show (((markPattern defaultMarks).spansFrom (byteLength decl.header) none
    (splitFromByte (byteLength decl.header) decl.body).2).map (·.start)) = _
  rw [hsplit, starts_spansFrom _ _ (by decide) (by decide), byteLength_append]

private theorem marked_block (decl : ClassDescription) (offset : Nat) (kind : MemberKind) :
    ((decl.block offset).marked defaultMarks tokenReader kind).map (·.name) =
      (decl.members.filter (·.kind == kind)).map (·.name.chars) := by
  have hbody : decl.body = (decl.header ++ [' ']) ++ (membersText decl.members ++ ['}']) := by
    simp [body]
  rw [ClassBlock.marked, markOffsets_block]
  show (((memberOffsets (byteLength (decl.header ++ [' '])) decl.members).filterMap
    (markedName? tokenReader decl.body kind)).map (·.name)) = _
  rw [hbody, names_memberOffsets]

theorem memberNames_block (decl : ClassDescription) (offset : Nat) (kind : MemberKind) :
    (decl.block offset).memberNames defaultMarks tokenReader kind = decl.memberNames kind := by
  have hnames : (decl.block offset).memberNames defaultMarks tokenReader kind =
      ((((decl.block offset).marked defaultMarks tokenReader kind).map (·.name)).filter
        (· ≠ [])).map String.ofList := by
    rw [ClassBlock.memberNames, List.filter_map, List.map_map]
    rfl
  have hfilled : ((decl.members.filter (·.kind == kind)).map (·.name.chars)).filter (· ≠ []) =
      (decl.members.filter (·.kind == kind)).map (·.name.chars) := by
    apply List.filter_eq_self.mpr
    intro name hm
    obtain ⟨member, -, rfl⟩ := List.mem_map.mp hm
    simpa using member.name.chars_ne_nil
  rw [hnames, marked_block, hfilled, List.map_map, memberNames]
  apply List.map_congr_left
  intro member _
  exact String.ofList_toList

end ClassDescription

end Reflector
