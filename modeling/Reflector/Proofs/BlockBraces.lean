import Reflector.Block.Braces
import Reflector.Proofs.Block
import Reflector.Proofs.BlockLiterals
/-!
# Which brace closes a block

The search for the end of a block counts every brace outside literals. It therefore ends with the
brace that pairs with the first one. That is the end of the first block only where no closing brace
comes before the first opening one: a closing brace in front is paired with an opening brace behind
it, and the search ends there.
-/

namespace Reflector

open Source Text

private theorem mem_bracesFrom_iff {offset : Nat} {lead : Lead} {cs : List Char}
    {brace : PlacedBrace} :
    brace ∈ bracesFrom offset lead cs ↔
      (∃ before after, cs = before ++ brace.char :: after ∧
        brace.start = offset + byteLength before) ∧
      ∀ literal ∈ literalsFrom offset lead cs,
        ¬ (literal.start ≤ brace.start ∧ brace.start < literal.stop) := by
  fun_induction bracesFrom offset lead cs with
  | case1 => simp
  | case2 offset lead c cs ho _ literal ih =>
    have htext : c :: cs = literal ++ (splitLiteral c cs).2 :=
      (congrArg (List.cons c) (splitLiteral_append c cs)).symm
    have hliterals : literalsFrom offset lead (c :: cs) = ⟨offset, literal⟩ ::
        literalsFrom (offset + byteLength literal) (lead.after literal) (splitLiteral c cs).2 :=
      literalsFrom_of_opens ho offset cs
    rw [ih, hliterals, List.forall_mem_cons]
    constructor
    · rintro ⟨⟨before, after, hrest, hstart⟩, hout⟩
      refine ⟨⟨literal ++ before, after, ?_, ?_⟩, ?_, hout⟩
      · rw [htext, hrest, List.append_assoc]
      · rw [hstart, byteLength_append, Nat.add_assoc]
      · simp only [PlacedLiteral.stop]
        omega
    · rintro ⟨⟨before, after, hcs, hstart⟩, hfirst, hout⟩
      simp only [PlacedLiteral.stop] at hfirst
      have hle : byteLength literal ≤ byteLength before := by omega
      obtain ⟨more, rfl, hrest⟩ := exists_append_of_byteLength_le (htext.symm.trans hcs) hle
      refine ⟨⟨more, after, hrest, ?_⟩, hout⟩
      rw [hstart, byteLength_append, Nat.add_assoc]
  | case3 offset lead c cs ho ih =>
    rw [literalsFrom_of_not_opens ho, List.mem_append, Option.mem_toList,
      brace?_eq_some_iff, ih]
    constructor
    · rintro (⟨rfl, hstart⟩ | ⟨⟨before, after, rfl, hstart⟩, hout⟩)
      · refine ⟨⟨[], cs, rfl, hstart⟩, fun literal hmem hin => ?_⟩
        have hle := le_start_of_mem hmem
        have hpos := brace.char.utf8Size_pos
        omega
      · exact ⟨⟨c :: before, after, rfl, by rw [hstart, byteLength_cons, Nat.add_assoc]⟩, hout⟩
    · rintro ⟨⟨before, after, hcs, hstart⟩, hout⟩
      cases before with
      | nil => exact Or.inl ⟨(List.cons.inj hcs).1, hstart⟩
      | cons d before =>
        obtain ⟨rfl, rfl⟩ := List.cons.inj hcs
        refine Or.inr ⟨⟨before, after, rfl, ?_⟩, hout⟩
        rw [hstart, byteLength_cons, Nat.add_assoc]

theorem exists_eq_append_of_mem_braces {cs : List Char} {start : Nat} {brace : PlacedBrace}
    (h : brace ∈ braces cs start) :
    ∃ before after, cs = before ++ brace.char :: after ∧ byteLength before = brace.start := by
  obtain ⟨⟨before, after, hrest, hstart⟩, -⟩ := mem_bracesFrom_iff.mp h
  refine ⟨(splitFromByte start cs).1 ++ before, after, ?_, ?_⟩
  · rw [List.append_assoc, ← hrest, splitFromByte_append]
  · rw [byteLength_append, hstart]

namespace Nesting

def pass (n : Nesting) (brace : PlacedBrace) : Nesting :=
  n.next brace.char

@[simp] private theorem pass_depth (n : Nesting) (brace : PlacedBrace) :
    (n.pass brace).depth = n.depth + if brace.isOpening then 1 else -1 := by
  rw [pass, PlacedBrace.char]
  split <;> rfl

@[simp] private theorem pass_opened (n : Nesting) (brace : PlacedBrace) :
    (n.pass brace).opened = (n.opened || brace.isOpening) := by
  rw [pass, PlacedBrace.char]
  cases brace.isOpening
  · exact (Bool.or_false n.opened).symm
  · exact (Bool.or_true n.opened).symm

/-- The first brace that closes the nesting. -/
def closedBy? (n : Nesting) : List PlacedBrace → Option PlacedBrace
  | [] => none
  | brace :: later => if (n.pass brace).isClosed then some brace else (n.pass brace).closedBy? later

private theorem closedBy?_brace? {n : Nesting} (hn : n.isClosed = false) (offset : Nat) (c : Char)
    (later : List PlacedBrace) :
    n.closedBy? ((brace? offset c).toList ++ later) =
      if (n.next c).isClosed then brace? offset c else (n.next c).closedBy? later := by
  cases hbrace : brace? offset c with
  | none =>
    obtain ⟨ho, hc⟩ := brace?_eq_none_iff.mp hbrace
    rw [next_of_not_brace ho hc, if_neg (by simp [hn])]
    rfl
  | some brace =>
    obtain ⟨rfl, -⟩ := brace?_eq_some_iff.mp hbrace
    rfl

end Nesting

private theorem closeBlock_stop {nesting : Nesting} (hn : nesting.isClosed = false) (offset : Nat)
    (lead : Lead) (cs : List Char) :
    (closeBlock nesting lead cs).map (fun block => offset + byteLength block.1) =
      (nesting.closedBy? (bracesFrom offset lead cs)).map PlacedBrace.stop := by
  fun_induction closeBlock nesting lead cs generalizing offset with
  | case1 => simp [bracesFrom, Nesting.closedBy?]
  | case2 nesting lead c cs ho _ literal ih =>
    rw [bracesFrom, if_pos ho, ← ih hn, Option.map_map]
    simp only [Function.comp_def, byteLength_append, Nat.add_assoc, literal]
  | case3 nesting lead c cs ho hclosed =>
    rw [bracesFrom, if_neg ho, Nesting.closedBy?_brace? hn, if_pos hclosed]
    cases hbrace : brace? offset c with
    | none =>
      obtain ⟨ho, hc⟩ := brace?_eq_none_iff.mp hbrace
      exact absurd (brace_of_isClosed_next hn hclosed) (not_or.mpr ⟨ho, hc⟩)
    | some brace =>
      obtain ⟨rfl, hstart⟩ := brace?_eq_some_iff.mp hbrace
      simp [PlacedBrace.stop, PlacedBrace.utf8Size_char, hstart]
  | case4 nesting lead c cs ho hclosed ih =>
    rw [bracesFrom, if_neg ho, Nesting.closedBy?_brace? hn, if_neg hclosed,
      ← ih (by simpa using hclosed), Option.map_map]
    simp only [Function.comp_def, byteLength_cons, Nat.add_assoc]

private theorem blockEnd?_eq_closedBy? (cs : List Char) (start : Nat) :
    blockEnd? cs start =
      (({} : Nesting).closedBy? (braces cs start)).map PlacedBrace.stop :=
  closeBlock_stop rfl _ _ _

namespace Nesting

/-- So many of the pairs begun have not ended yet, and nothing but such pairs has been read. -/
structure IsInside (opening : Bool) (pairs : Nat) (n : Nesting) : Prop where
  depth_eq : n.depth = if opening then (pairs : Int) else -pairs
  opened_of_opening : opening = true → n.opened = true

namespace IsInside

variable {opening : Bool} {pairs : Nat} {n : Nesting} {brace : PlacedBrace}

private theorem isClosed_eq_false (h : n.IsInside opening (pairs + 1)) : n.isClosed = false := by
  have hdepth : n.depth ≠ 0 := by
    have heq := h.depth_eq
    split at heq <;> omega
  simp [isClosed, hdepth]

private theorem pass_first (brace : PlacedBrace) :
    (({} : Nesting).pass brace).IsInside brace.isOpening 1 := by
  constructor <;> simp

private theorem pass_begin (h : n.IsInside opening pairs) (hbrace : brace.isOpening = opening) :
    (n.pass brace).IsInside opening (pairs + 1) := by
  subst hbrace
  constructor
  · rw [pass_depth, h.depth_eq]
    split <;> omega
  · intro ho
    rw [pass_opened, ho, Bool.or_true]

private theorem pass_end (h : n.IsInside opening (pairs + 1)) (hbrace : brace.isOpening = !opening) :
    (n.pass brace).IsInside opening pairs := by
  constructor
  · rw [pass_depth, h.depth_eq, hbrace]
    cases opening with
    | true =>
      show ((pairs + 1 : Nat) : Int) + -1 = pairs
      omega
    | false =>
      show -((pairs + 1 : Nat) : Int) + 1 = -pairs
      omega
  · intro ho
    rw [pass_opened, h.opened_of_opening ho, Bool.true_or]

/-- The brace that ends the only pair left closes the nesting. Where the pairs run backwards, it is the
one that has opened the nesting, too. -/
private theorem isClosed_pass (h : n.IsInside opening 1) (hbrace : brace.isOpening = !opening) :
    (n.pass brace).isClosed = true := by
  have hdepth : (n.pass brace).depth = 0 := by
    rw [(h.pass_end hbrace).depth_eq]
    split <;> rfl
  have hopened : (n.pass brace).opened = true := by
    rw [pass_opened, hbrace]
    cases opening with
    | true => rw [h.opened_of_opening rfl, Bool.true_or]
    | false => exact Bool.or_true _
  rw [isClosed, hdepth, hopened]
  rfl

end IsInside

private theorem closedBy?_cons {opening : Bool} {pairs : Nat} {n : Nesting} {brace : PlacedBrace}
    (h : (n.pass brace).IsInside opening (pairs + 1)) (later : List PlacedBrace) :
    n.closedBy? (brace :: later) = (n.pass brace).closedBy? later := by
  rw [closedBy?, h.isClosed_eq_false]
  rfl

end Nesting

/-- Braces that pair up leave the search where it was. -/
private theorem Paired.closedBy?_append {opening : Bool} {inside : List PlacedBrace}
    (h : Paired opening inside) {pairs : Nat} {n : Nesting} (hn : n.IsInside opening (pairs + 1))
    (later : List PlacedBrace) :
    ∃ n' : Nesting, n'.IsInside opening (pairs + 1) ∧
      n.closedBy? (inside ++ later) = n'.closedBy? later := by
  induction h generalizing pairs n later with
  | nil => exact ⟨n, hn, rfl⟩
  | @pair first last inside more hfirst _ hlast _ ihinside ihmore =>
    have hbegin := hn.pass_begin hfirst
    obtain ⟨n₁, hn₁, hinside⟩ := ihinside hbegin (last :: (more ++ later))
    have hend := hn₁.pass_end hlast
    obtain ⟨n₂, hn₂, hmore⟩ := ihmore hend later
    refine ⟨n₂, hn₂, ?_⟩
    calc n.closedBy? (first :: inside ++ last :: more ++ later)
        = n.closedBy? (first :: (inside ++ last :: (more ++ later))) := by simp
      _ = (n.pass first).closedBy? (inside ++ last :: (more ++ later)) :=
        Nesting.closedBy?_cons hbegin _
      _ = n₁.closedBy? (last :: (more ++ later)) := hinside
      _ = (n₁.pass last).closedBy? (more ++ later) := Nesting.closedBy?_cons hend _
      _ = n₂.closedBy? later := hmore

/-- The brace ends the outermost of so many open pairs: one brace after another ends the pair begun
last, with braces that pair up in front of each. -/
inductive EndsOutermost (opening : Bool) (last : PlacedBrace) : Nat → List PlacedBrace → Prop
  | last {inside rest : List PlacedBrace} : Paired opening inside → last.isOpening = !opening →
      EndsOutermost opening last 1 (inside ++ last :: rest)
  | inner {pairs : Nat} {ender : PlacedBrace} {inside rest : List PlacedBrace} :
      Paired opening inside → ender.isOpening = !opening →
      EndsOutermost opening last (pairs + 1) rest →
      EndsOutermost opening last (pairs + 2) (inside ++ ender :: rest)

namespace EndsOutermost

variable {opening : Bool} {pairs : Nat} {last : PlacedBrace} {braces : List PlacedBrace}

theorem cons {first : PlacedBrace} (hfirst : first.isOpening = opening)
    (h : EndsOutermost opening last (pairs + 2) braces) :
    EndsOutermost opening last (pairs + 1) (first :: braces) := by
  obtain _ | @⟨_, ender, inside, rest, hinside, hender, hrest⟩ := h
  -- The pair that `ender` ends joins the braces in front of the next ender.
  have hjoin {more : List PlacedBrace} (hmore : Paired opening more) :
      Paired opening (first :: inside ++ ender :: more) :=
    .pair hfirst hinside hender hmore
  cases hrest with
  | last hmore hlast => simpa using EndsOutermost.last (hjoin hmore) hlast
  | inner hmore hnext hrest => simpa using hrest.inner (hjoin hmore) hnext

private theorem closedBy?_eq_some (h : EndsOutermost opening last pairs braces) {n : Nesting}
    (hn : n.IsInside opening pairs) : n.closedBy? braces = some last := by
  induction h generalizing n with
  | @last inside rest hinside hlast =>
    obtain ⟨n', hn', heq⟩ := hinside.closedBy?_append hn (last :: rest)
    rw [heq, Nesting.closedBy?, if_pos (hn'.isClosed_pass hlast)]
  | @inner pairs ender inside rest hinside hender _ ih =>
    obtain ⟨n', hn', heq⟩ := hinside.closedBy?_append hn (ender :: rest)
    have hend := hn'.pass_end hender
    rw [heq, Nesting.closedBy?_cons hend]
    exact ih hend

/-- Where the search stops inside a pair, the brace found ends the outermost one. -/
private theorem of_closedBy? {n : Nesting} (hn : n.IsInside opening (pairs + 1))
    (h : n.closedBy? braces = some last) : EndsOutermost opening last (pairs + 1) braces := by
  induction braces generalizing n pairs with
  | nil => contradiction
  | cons brace later ih =>
    by_cases hbrace : brace.isOpening = opening
    · have hbegin := hn.pass_begin hbrace
      rw [Nesting.closedBy?_cons hbegin] at h
      exact (ih hbegin h).cons hbrace
    · have hother : brace.isOpening = !opening := Bool.eq_not.mpr hbrace
      cases pairs with
      | zero =>
        rw [Nesting.closedBy?, if_pos (hn.isClosed_pass hother)] at h
        obtain rfl := Option.some.inj h
        exact .last .nil hother
      | succ pairs =>
        have hend := hn.pass_end hother
        rw [Nesting.closedBy?_cons hend] at h
        exact .inner .nil hother (ih hend h)

end EndsOutermost

private theorem closedBy?_eq_some_iff {braces : List PlacedBrace} {last : PlacedBrace} :
    ({} : Nesting).closedBy? braces = some last ↔ PairsFirst braces last := by
  cases braces with
  | nil => simp [Nesting.closedBy?, PairsFirst]
  | cons first later =>
    have hfirst := Nesting.IsInside.pass_first first
    rw [Nesting.closedBy?_cons hfirst]
    constructor
    · intro h
      obtain @⟨inside, rest, hinside, hlast⟩ := EndsOutermost.of_closedBy? hfirst h
      exact ⟨first, inside, rest, rfl, hinside, hlast⟩
    · rintro ⟨_, inside, rest, heq, hinside, hlast⟩
      obtain ⟨rfl, rfl⟩ := List.cons.inj heq
      exact (EndsOutermost.last hinside hlast).closedBy?_eq_some hfirst

private theorem blockEnd?_eq_some_iff {cs : List Char} {start stop : Nat} :
    blockEnd? cs start = some stop ↔
      ∃ last, PairsFirst (braces cs start) last ∧ last.stop = stop := by
  rw [blockEnd?_eq_closedBy?, Option.map_eq_some_iff]
  simp only [closedBy?_eq_some_iff]

/-- A block ends with the brace that pairs with the first brace from `start` on. Unless a closing
brace comes before the first opening one, it therefore ends exactly where the first opening brace is
matched. Where one does, the block ends with an opening brace, if it ends at all. -/
theorem blockEnd?_pairs (cs : List Char) (start : Nat) :
    (∀ stop, blockEnd? cs start = some stop ↔
      ∃ last, PairsFirst (braces cs start) last ∧ last.stop = stop) ∧
    (¬ BeginsStray (braces cs start) → ∀ stop, blockEnd? cs start = some stop ↔
      ∃ last, PairsFirstOpening (braces cs start) last ∧ last.stop = stop) ∧
    ∀ stop, blockEnd? cs start = some stop → ∃ before c after,
      cs = before ++ c :: after ∧ byteLength before + 1 = stop ∧
        (BeginsStray (braces cs start) ∧ c = '{' ∨ ¬ BeginsStray (braces cs start) ∧ c = '}') := by
  refine ⟨fun _ => blockEnd?_eq_some_iff, fun h stop => ?_, fun stop h => ?_⟩
  · simp only [pairsFirstOpening_iff h]
    exact blockEnd?_eq_some_iff
  · obtain ⟨last, hpairs, rfl⟩ := blockEnd?_eq_some_iff.mp h
    have hmem : last ∈ braces cs start := by
      obtain ⟨first, inside, rest, hbraces, -, -⟩ := hpairs
      simp [hbraces]
    obtain ⟨before, after, hcs, hbefore⟩ := exists_eq_append_of_mem_braces hmem
    refine ⟨before, last.char, after, hcs, by rw [hbefore]; rfl, ?_⟩
    rw [hpairs.beginsStray_iff, PlacedBrace.char]
    cases last.isOpening <;> simp

def quotedBraceBlock : List Char :=
  "\x7b '\x7d' \x7b \x7d \x7d".toList

theorem blockEnd?_pairs_quotedBraceBlock :
    ¬ BeginsStray (braces quotedBraceBlock 0) ∧
      ∃ last, PairsFirstOpening (braces quotedBraceBlock 0) last ∧ last.stop = 11 := by
  have hstray : ¬ BeginsStray (braces quotedBraceBlock 0) := by decide +kernel
  have hend : blockEnd? quotedBraceBlock 0 = some 11 := by decide +kernel
  exact ⟨hstray, ((blockEnd?_pairs quotedBraceBlock 0).2.1 hstray 11).mp hend⟩

/-- A closing brace, and a block behind it. -/
def strayBraceBlock : List Char :=
  "\x7d \x7b \x7d".toList

/-- The search ends with the opening brace of the block, where the block has not even begun. -/
theorem exists_blockEnd?_of_stray :
    ∃ last, PairsFirstOpening (braces strayBraceBlock 0) last ∧ last.stop = 5 ∧
      blockEnd? strayBraceBlock 0 = some 3 := by
  have hbraces : braces strayBraceBlock 0 = [⟨0, false⟩, ⟨2, true⟩, ⟨4, false⟩] := by
    decide +kernel
  refine ⟨⟨4, false⟩, ?_, rfl, by decide +kernel⟩
  exact ⟨[⟨0, false⟩], ⟨2, true⟩, [], [], hbraces, by simp, rfl, .nil, rfl⟩

end Reflector
