import Reflector.Config.Reading
import Reflector.Proofs.HeaderName
/-!
# Headers without a name

A header is found by its whole keyword, but its last word is compared with the keywords one by one. A
header without a name is therefore refused if the last word of its keyword is a keyword itself, and
otherwise that word is taken for the name.
-/

namespace Reflector

open Text

namespace AnonymousHeader

variable {keywords : List (List Char)}

theorem opensWord_front {words : List (List Char)}
    (h : ∀ word ∈ words, isIdentifier word = true) :
    OpensWord (words.flatMap fun word => word ++ [' ']) := by
  induction words using List.reverseRecOn with
  | nil => exact opensWord_nil
  | append_singleton words word ih =>
    obtain ⟨hwords, hword⟩ := List.forall_mem_append.mp h
    obtain ⟨cleaned, hcleaned, -⟩ := ih hwords
    have hfront := hcleaned.append (cleans_identifier (hword word (by simp)))
    have hopens := hfront.opensWord_gap (.blank (show isBlank ' ' = true from rfl) .nil) (by simp)
    simpa using hopens

end AnonymousHeader

/-- A header without a name is refused exactly if the last word of its keyword is a keyword of its own.
Otherwise the class goes by that word. -/
theorem headerName_anonymous {keywords : List (List Char)} (header : AnonymousHeader keywords) :
    headerName keywords header.text =
      if header.last ∈ keywords then
        .error (.unnamedClass (String.ofList (trim isBlank header.text)))
      else .ok (String.ofList header.last) :=
  headerName_identifier (AnonymousHeader.opensWord_front header.isIdentifier_front)
    header.isIdentifier_last header.headerGap header.headerEnding

/-- A keyword of two words, the second of which is a keyword too. -/
def structKeywords : List (List Char) :=
  ["enum".toList ++ [' '] ++ "struct".toList, "struct".toList]

def anonymousStruct : AnonymousHeader structKeywords where
  front := ["enum".toList]
  last := "struct".toList
  gap := [' '] ++ "[[x]]".toList
  ending := ": int \x7b".toList
  isIdentifier_front := List.forall_mem_singleton.mpr rfl
  isIdentifier_last := rfl
  keyword_mem := .head _
  headerGap := .blank rfl (.bracketed (show ']' ∉ "x".toList by decide) .nil)
  headerEnding := .bases (by decide) (by decide)

theorem headerName_anonymousStruct :
    headerName structKeywords anonymousStruct.text =
      .error (.unnamedClass "enum struct [[x]]: int \x7b") := by
  have hread := headerName_anonymous anonymousStruct
  rwa [if_pos (.tail _ (.head _))] at hread

/-- A keyword of two words, neither of which is a keyword. -/
def enumClassText : List Char :=
  "enum".toList ++ [' '] ++ "class".toList

def anonymousEnum : AnonymousHeader [enumClassText] where
  front := ["enum".toList]
  last := "class".toList
  gap := [' ']
  ending := ['{']
  isIdentifier_front := List.forall_mem_singleton.mpr rfl
  isIdentifier_last := rfl
  keyword_mem := .head _
  headerGap := .blank rfl .nil
  headerEnding := .brace

/-- A configuration can have this keyword alone. The header is found by it then, and the class is called
by its second word. -/
theorem exists_anonymousHeader_named :
    (Config.ofEntries [("class_keywords", .array [.string "enum class"])]).2.classKeywords.map
        String.toList = [enumClassText] ∧
      (headerPattern [enumClassText]).match? none (anonymousEnum.text ++ " int x; \x7d;".toList) =
        some (anonymousEnum.text, " int x; \x7d;".toList) ∧
      headerName [enumClassText] anonymousEnum.text = .ok "class" :=
  ⟨by decide +kernel, by decide +kernel, by decide +kernel⟩

end Reflector
