import Stencil.Proofs.Bytes.Utf8
import Stencil.Template.Directive

/-!
# The words of directives

What the content of a directive has to look like.  Reading a content succeeds exactly when
it has one of these forms, and each content has at most one.
-/

namespace Stencil

/-!
# Cutting at a byte or a mark
-/

namespace Bytes

theorem cutAt_append {b : UInt8} {front : Bytes} (h : b ∉ front) (back : Bytes) :
    cutAt b (front ++ b :: back) = some (front, back) := by
  have hfront : ∀ c ∈ front, (c != b) = true := by
    intro c hc
    rw [bne_iff_ne]
    rintro rfl
    exact h hc
  simp [cutAt, List.takeWhile_append_of_pos hfront, List.dropWhile_append_of_pos hfront]

theorem cutAt_eq_some {b : UInt8} {bytes front back : Bytes}
    (h : cutAt b bytes = some (front, back)) : bytes = front ++ b :: back ∧ b ∉ front := by
  by_cases hmem : b ∈ bytes
  · rcases List.eq_append_cons_of_mem hmem with ⟨before, behind, rfl, hbefore⟩
    rw [cutAt_append hbefore] at h
    cases h
    exact ⟨rfl, hbefore⟩
  · simp [cutAt, hmem] at h

theorem cutAt_eq_none {b : UInt8} {bytes : Bytes} (h : cutAt b bytes = none) : b ∉ bytes := by
  intro hmem
  simp [cutAt, hmem] at h

theorem cutAround_eq_some {mark bytes front back : Bytes}
    (h : cutAround mark bytes = some (front, back)) : bytes = front ++ (mark ++ back) := by
  induction bytes generalizing front with
  | nil =>
      cases h
  | cons b rest ih =>
      rw [cutAround] at h
      split at h
      · rename_i hmark
        cases h
        rw [List.nil_append]
        exact (List.prefix_iff_eq_append.mp (List.isPrefixOf_iff_prefix.mp hmark)).symm
      · rcases Option.map_eq_some_iff.mp h with ⟨⟨before, behind⟩, hcut, hparts⟩
        cases hparts
        rw [ih hcut]
        rfl

theorem cutAround_append {b : UInt8} {mark front : Bytes} (h : b ∉ front) (back : Bytes) :
    cutAround (b :: mark) (front ++ (b :: mark ++ back)) = some (front, back) := by
  induction front with
  | nil =>
      simp [cutAround]
  | cons c front ih =>
      have hne : b ≠ c := by
        rintro rfl
        exact h (by simp)
      have hfront : b ∉ front := fun hmem => h (by simp [hmem])
      rw [List.cons_append, cutAround, ih hfront]
      simp [hne]

end Bytes

namespace Directive

/-!
# Forms
-/

def keywords : List Bytes :=
  [ifWord, forWord, Bytes.ofText "else", Bytes.ofText "endif", Bytes.ofText "endfor"]

inductive Spells : Bytes → Directive → Prop where
  | openCond {condition : Path} :
      condition ≠ [] → condition.head? ≠ some Byte.space →
      Spells (ifWord ++ Byte.space :: condition) (.openCond condition)
  | openLoop {var : Bytes} {iterable : Path} :
      var ≠ [] →
      (∀ b ∈ var, b ≠ Byte.space ∧ b ≠ Byte.dot ∧ b ≠ Byte.openBracket ∧
        b ≠ Byte.closeBracket) →
      iterable ≠ [] → Byte.space ∉ iterable →
      Spells (forWord ++ Byte.space :: (var ++ (inMark ++ iterable))) (.openLoop var iterable)
  | otherwise : Spells (Bytes.ofText "else") (.continuation .otherwise)
  | endCond : Spells (Bytes.ofText "endif") (.continuation .endCond)
  | endLoop : Spells (Bytes.ofText "endfor") (.continuation .endLoop)
  | escape {braces : Bytes} :
      braces ≠ [] → (∀ b ∈ braces, b = Byte.openBrace) → Spells braces (.escape braces)
  | subst {path : Path} :
      path ≠ [] → (∀ b ∈ path, isPathByte b = true) → path ∉ keywords →
      Spells path (.subst path)

inductive Reads : Bytes → Directive → Prop where
  | comment (note : Bytes) : Reads (Byte.hash :: note) .comment
  | word {content : Bytes} {d : Directive} :
      content.head? ≠ some Byte.hash → (∃ chars, content = Utf8.encode chars) →
      Spells content d → Reads content d

theorem Reads.ne_nil {content : Bytes} {d : Directive} (h : Reads content d) :
    content ≠ [] := by
  cases h with
  | comment note =>
      exact List.cons_ne_nil _ _
  | word _ _ hspells =>
      cases hspells with
      | openCond _ _ =>
          simp
      | openLoop _ _ _ _ =>
          simp
      | otherwise =>
          decide
      | endCond =>
          decide
      | endLoop =>
          decide
      | escape hne _ =>
          exact hne
      | subst hne _ _ =>
          exact hne

/-!
# Reading contents
-/

theorem isVariable_iff (var : Bytes) :
    isVariable var = true ↔
      var ≠ [] ∧ ∀ b ∈ var,
        b ≠ Byte.space ∧ b ≠ Byte.dot ∧ b ≠ Byte.openBracket ∧ b ≠ Byte.closeBracket := by
  simp [isVariable, and_assoc]

theorem loopHead?_eq_some_iff (expression var : Bytes) (iterable : Path) :
    loopHead? expression = some (var, iterable) ↔
      expression = var ++ (inMark ++ iterable) ∧ isVariable var = true ∧ iterable ≠ [] ∧
        Byte.space ∉ iterable := by
  unfold loopHead?
  constructor
  · intro h
    cases hcut : Bytes.cutAround inMark expression with
    | none =>
        simp only [hcut] at h
        cases h
    | some parts =>
        rcases parts with ⟨front, back⟩
        simp only [hcut] at h
        split at h
        · rename_i hvalid
          cases h
          simp only [Bool.and_eq_true, Bool.not_eq_true', List.isEmpty_eq_false_iff,
            List.contains_eq_mem, decide_eq_false_iff_not] at hvalid
          exact ⟨Bytes.cutAround_eq_some hcut, hvalid.left.left,
            hvalid.left.right, hvalid.right⟩
        · cases h
  · rintro ⟨rfl, hvar, hne, hspace⟩
    have hfree : Byte.space ∉ var := by
      intro hmem
      exact (((isVariable_iff var).mp hvar).right _ hmem).left rfl
    have hcut : Bytes.cutAround inMark (var ++ (inMark ++ iterable)) = some (var, iterable) :=
      Bytes.cutAround_append hfree iterable
    simp [hcut, hvar, hne, hspace]

theorem ofExpression_eq_ok_iff {word : Bytes} (hword : Byte.space ∉ word) (expression : Bytes)
    (d : Directive) :
    ofExpression word expression = .ok d ↔ Spells (word ++ Byte.space :: expression) d := by
  constructor
  · intro h
    unfold ofExpression at h
    split at h
    · cases h
    · rename_i hexpression
      rw [not_or, List.isEmpty_iff] at hexpression
      split at h
      · rename_i hif
        cases h
        rw [hif]
        exact Spells.openCond hexpression.left hexpression.right
      · split at h
        · rename_i hfor
          cases hhead : loopHead? expression with
          | none =>
              simp only [hhead] at h
              cases h
          | some parts =>
              rcases parts with ⟨var, iterable⟩
              simp only [hhead] at h
              cases h
              rcases (loopHead?_eq_some_iff expression var iterable).mp hhead with
                ⟨hsplit, hvar, hne, hspace⟩
              rcases (isVariable_iff var).mp hvar with ⟨hvarNe, hvarFree⟩
              rw [hfor, hsplit]
              exact Spells.openLoop hvarNe hvarFree hne hspace
        · cases h
  · intro h
    have hcut := Bytes.cutAt_append hword expression
    generalize hcontent : word ++ Byte.space :: expression = content at h hcut
    have hmem : Byte.space ∈ content := by
      rw [← hcontent]
      simp
    cases h with
    | openCond hne hhead =>
        rename_i condition
        rw [Bytes.cutAt_append (by decide)] at hcut
        cases hcut
        simp [ofExpression, hne, hhead]
    | openLoop hvarNe hvarFree hne hspace =>
        rename_i var iterable
        rw [Bytes.cutAt_append (by decide)] at hcut
        cases hcut
        have hvar := (isVariable_iff var).mpr ⟨hvarNe, hvarFree⟩
        have hloop := (loopHead?_eq_some_iff _ var iterable).mpr ⟨rfl, hvar, hne, hspace⟩
        have hhead : (var ++ (inMark ++ iterable)).head? ≠ some Byte.space := by
          cases var with
          | nil =>
              exact absurd rfl hvarNe
          | cons b var =>
              simpa using (hvarFree b (by simp)).left
        have hwords : forWord ≠ ifWord := by decide
        have hlong : ¬ (var ++ (inMark ++ iterable)).isEmpty = true := by simp [hvarNe]
        unfold ofExpression
        rw [if_neg (by simp only [not_or]; exact ⟨hlong, hhead⟩), if_neg hwords,
          if_pos rfl, hloop]
    | otherwise =>
        exact absurd hmem (by decide)
    | endCond =>
        exact absurd hmem (by decide)
    | endLoop =>
        exact absurd hmem (by decide)
    | escape _ hbraces =>
        exact absurd (hbraces _ hmem) (by decide)
    | subst _ hpath _ =>
        exact absurd (hpath _ hmem) (by decide)

theorem ofWord_of_notMem_keywords {word : Bytes} (h : word ∉ keywords) :
    ofWord word =
      if word.all (· == Byte.openBrace) then .ok (.escape word)
      else if word.all isPathByte then .ok (.subst word)
      else .error .invalidDirective := by
  simp only [keywords, List.mem_cons, List.not_mem_nil, or_false, not_or] at h
  rcases h with ⟨hif, hfor, helse, hendif, hendfor⟩
  unfold ofWord
  rw [if_neg helse, if_neg hendif, if_neg hendfor, if_neg (not_or.mpr ⟨hif, hfor⟩)]

theorem notMem_keywords_of_braces {word : Bytes} (h : ∀ b ∈ word, b = Byte.openBrace) :
    word ∉ keywords := by
  have hkeywords : ∀ keyword ∈ keywords, keyword.all (· == Byte.openBrace) = false := by decide
  intro hmem
  have hfalse := hkeywords word hmem
  have htrue : word.all (· == Byte.openBrace) = true := by simpa using h
  rw [htrue] at hfalse
  cases hfalse

theorem ofWord_eq_ok_iff {word : Bytes} (hne : word ≠ []) (hword : Byte.space ∉ word)
    (d : Directive) : ofWord word = .ok d ↔ Spells word d := by
  constructor
  · intro h
    by_cases hkeyword : word ∈ keywords
    · simp only [keywords, List.mem_cons, List.not_mem_nil, or_false] at hkeyword
      rcases hkeyword with rfl | rfl | rfl | rfl | rfl
      · cases h
      · cases h
      · cases h
        exact Spells.otherwise
      · cases h
        exact Spells.endCond
      · cases h
        exact Spells.endLoop
    · rw [ofWord_of_notMem_keywords hkeyword] at h
      split at h
      · rename_i hbraces
        cases h
        exact Spells.escape hne (by simpa using hbraces)
      · split at h
        · rename_i hpath
          cases h
          exact Spells.subst hne (List.all_eq_true.mp hpath) hkeyword
        · cases h
  · intro h
    cases h with
    | openCond _ _ =>
        exact absurd (by simp) hword
    | openLoop _ _ _ _ =>
        exact absurd (by simp) hword
    | otherwise =>
        rfl
    | endCond =>
        rfl
    | endLoop =>
        rfl
    | escape _ hbraces =>
        have hall : word.all (· == Byte.openBrace) = true := by simpa using hbraces
        rw [ofWord_of_notMem_keywords (notMem_keywords_of_braces hbraces), if_pos hall]
    | subst _ hpath hkeyword =>
        have hall : word.all isPathByte = true := List.all_eq_true.mpr hpath
        have hbrace : word.all (· == Byte.openBrace) = false := by
          cases word with
          | nil =>
              exact absurd rfl hne
          | cons b rest =>
              have hb : b ≠ Byte.openBrace := by
                rintro rfl
                exact absurd (hpath Byte.openBrace (by simp)) (by decide)
              simp [hb]
        rw [ofWord_of_notMem_keywords hkeyword, hbrace, if_neg (by simp), if_pos hall]

theorem fault_of_read {content : Bytes} {fault : CompileFault}
    (h : read content = .error fault) :
    fault = .invalidDirective ∨ fault = .invalidLoopSyntax := by
  grind [read, ofWord, ofExpression]

theorem read_eq_ok_iff {content : Bytes} (hne : content ≠ []) (d : Directive) :
    read content = .ok d ↔ Reads content d := by
  unfold read
  by_cases hhash : content.head? = some Byte.hash
  · rw [if_pos hhash]
    rcases List.head?_eq_some_iff.mp hhash with ⟨note, rfl⟩
    constructor
    · intro h
      cases h
      exact Reads.comment note
    · intro h
      cases h with
      | comment _ =>
          rfl
      | word hother _ _ =>
          exact absurd rfl hother
  · rw [if_neg hhash]
    have hwords : Reads content d ↔ Utf8.isValid content = true ∧ Spells content d := by
      rw [Utf8.isValid_iff_exists_encode]
      constructor
      · intro h
        cases h with
        | comment _ =>
            exact absurd rfl hhash
        | word _ htext hspells =>
            exact ⟨htext, hspells⟩
      · rintro ⟨htext, hspells⟩
        exact Reads.word hhash htext hspells
    rw [hwords]
    cases hvalid : Utf8.isValid content with
    | false =>
        simp
    | true =>
        cases hcut : Bytes.cutAt Byte.space content with
        | none =>
            simpa using ofWord_eq_ok_iff hne (Bytes.cutAt_eq_none hcut) d
        | some parts =>
            rcases parts with ⟨front, back⟩
            rcases Bytes.cutAt_eq_some hcut with ⟨rfl, hfront⟩
            simpa using ofExpression_eq_ok_iff hfront back d

end Directive
end Stencil
