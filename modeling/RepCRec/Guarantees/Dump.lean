import RepCRec.Engine.Dump
import RepCRec.Guarantees.Checker
import RepCRec.Refinement.View

/-!
What a dump tells about the stored values, and what the checker makes of it. The text of a dump is
that of its lines (`dump_eq_unlines`), and two dumps are equal exactly when all copies have the same
values (`dump_eq_iff`). Against an expected dump the checker passes exactly the outputs that begin
with its lines, if the expected file ends without a line end, and none otherwise (`check_dump`).
-/

namespace RepCRec

open Container
open Container.StdString

/-! ### A line -/

namespace Site

variable {useFile : Bool} {id id' : SiteId} {st st' : Site} {v : VarId} {c : Char}

/-- The field of a variable has no white space but blanks. -/
lemma notMem_dumpField (hb : c ≠ ' ') (hx : c ≠ 'x') (hm : c ≠ '-') (hc : c ≠ ':')
    (hd : c.isDigit = false) : c ∉ st.dumpField id v := by
  have hnum : ∀ n k, c ∉ setw k (decimal n) := fun n k h =>
    (mem_setw h).elim hb (notMem_decimal hm hd)
  rw [dumpField]
  split_ifs
  · simpa using hb
  · simp [hx, hc, hnum]

lemma tab_notMem_dumpField : '\t' ∉ st.dumpField id v :=
  notMem_dumpField (by decide) (by decide) (by decide) (by decide) (by decide)

lemma newline_notMem_dumpField : '\n' ∉ st.dumpField id v :=
  notMem_dumpField (by decide) (by decide) (by decide) (by decide) (by decide)

lemma dumpEnd_notMem_dumpField : dumpEnd id v ∉ st.dumpField id v := by
  rw [dumpEnd]
  split_ifs
  · exact tab_notMem_dumpField
  · exact newline_notMem_dumpField
  · exact tab_notMem_dumpField

/-- The field of a variable tells the value of the copy. -/
lemma dumpField_eq_iff : st.dumpField id v = st'.dumpField id v ↔
    (id ∈ copies v → (st.vars v).value = (st'.vars v).value) := by
  have hblank : ∀ n : ℤ, ' ' ∉ decimal n := fun n => notMem_decimal (by decide) (by decide)
  have hcopy : id ∈ copies v ↔ ¬(v.isOdd && id != v.home) = true := by
    rw [copies, Set.mem_ofPred_eq]
    cases v.isOdd <;> simp
  rw [dumpField, dumpField, hcopy]
  split_ifs with h
  · exact iff_of_true rfl fun hno => absurd h hno
  · rw [List.append_cancel_left_eq, List.cons.injEq, eq_self, true_and,
      setw_inj (hblank _) (hblank _), decimal_injective.eq_iff]
    exact (imp_iff_right h).symm

lemma one_le_varCount : 1 ≤ varCount := by decide

/-- The variable whose field ends the line. -/
def lastVar : VarId := ⟨varCount, one_le_varCount, le_rfl⟩

lemma all_eq : VarId.all = VarId.all.dropLast ++ [lastVar] := by decide +kernel

/-- The text of a line. -/
def dumpLine (useFile : Bool) (id : SiteId) (st : Site) : List Char :=
  dumpHead useFile id ++
    (VarId.all.dropLast.flatMap fun v => st.dumpField id v ++ [dumpEnd id v]) ++
      st.dumpField id lastVar

/-- The dump of a site is one line. -/
lemma dump_eq_append : st.dump useFile id = st.dumpLine useFile id ++ ['\n'] := by
  have hend : dumpEnd id lastVar = '\n' := by simp [dumpEnd, lastVar, VarId.isOdd, varCount]
  rw [dump, dumpLine]
  nth_rewrite 1 [all_eq]
  rw [List.flatMap_append, List.flatMap_singleton, hend]
  simp

lemma length_setw_decimal (id : SiteId) : (setw 2 (decimal id.id)).length = 2 := by
  have h : ∀ s ∈ SiteId.all, (setw 2 (decimal s.id)).length = 2 := by decide
  exact h id (SiteId.mem_all id)

/-- What a line begins with has no line end. -/
lemma newline_notMem_dumpHead : '\n' ∉ dumpHead useFile id := by
  have h : '\n' ∉ setw 2 (decimal id.id) := fun h =>
    (mem_setw h).elim (by decide) (notMem_decimal (by decide) (by decide))
  rw [dumpHead]
  split_ifs <;> simp [h]

lemma newline_notMem_dumpLine : '\n' ∉ st.dumpLine useFile id := by
  have hend : ∀ v ∈ VarId.all.dropLast, dumpEnd id v = '\t' := by
    intro v hv
    have hne : ∀ v ∈ VarId.all.dropLast, v.id ≠ varCount := by decide
    rw [dumpEnd, if_neg (hne v hv), ite_self]
  rw [dumpLine, List.mem_append, List.mem_append]
  rintro ((h | h) | h)
  · exact newline_notMem_dumpHead h
  · obtain ⟨v, hv, h⟩ := List.mem_flatMap.mp h
    rw [hend v hv, List.mem_append] at h
    exact h.elim newline_notMem_dumpField (by decide)
  · exact newline_notMem_dumpField h

/-- A line tells the values of the copies at its site. -/
lemma dumpLine_eq_iff : st.dumpLine useFile id = st'.dumpLine useFile id ↔
    ∀ v, id ∈ copies v → (st.vars v).value = (st'.vars v).value := by
  rw [← List.append_left_inj ['\n'], ← dump_eq_append, ← dump_eq_append, dump, dump,
    List.append_cancel_left_eq, flatMap_eq_iff fun v _ => ?_]
  · simp only [List.append_cancel_right_eq, dumpField_eq_iff, VarId.mem_all, true_implies]
  · exact ⟨dumpEnd id v, _, _, dumpEnd_notMem_dumpField, dumpEnd_notMem_dumpField, rfl, rfl⟩

/-- Lines of two sites are different. -/
lemma dumpLine_ne (h : id ≠ id') : st.dumpLine useFile id ≠ st'.dumpLine useFile id' := by
  intro heq
  have hhead : dumpHead useFile id = dumpHead useFile id' := by
    refine (List.append_inj ((List.append_assoc ..).symm.trans
      (heq.trans (List.append_assoc ..))) ?_).1
    cases useFile <;> simp [dumpHead, length_setw_decimal]
  have hnum : ∀ s ∈ SiteId.all, ∀ s' ∈ SiteId.all, setw 2 (decimal s.id) = setw 2 (decimal s'.id) →
      s = s' := by decide
  refine h (hnum id (SiteId.mem_all id) id' (SiteId.mem_all id') ?_)
  cases useFile <;> simpa [dumpHead] using hhead

/-- No line of a site is a rule. -/
lemma dumpLine_ne_rule : st.dumpLine useFile id ≠ SiteManager.rule := by
  have hline : (st.dumpLine useFile id).head? = some 's' := by
    rw [dumpLine, dumpHead]
    cases useFile <;> rfl
  have hrule : SiteManager.rule.head? = some '=' := by decide
  intro heq
  rw [heq, hrule] at hline
  cases hline

end Site

/-! ### The text -/

namespace SiteManager

variable {useFile : Bool} {S S' : SiteId → Site} {t : List Char}

/-- The lines of a dump. -/
def dumpLines (useFile : Bool) (S : SiteId → Site) : List (List Char) :=
  rule :: SiteId.all.map (fun s => (S s).dumpLine useFile s) ++ [rule]

/-- The text of a dump is that of its lines. -/
lemma dump_eq_unlines (useFile : Bool) (S : SiteId → Site) :
    dump useFile S = unlines (dumpLines useFile S) := by
  simp [dump, dumpLines, unlines, List.flatMap_append, List.flatMap_map, Site.dump_eq_append]

lemma newline_notMem_of_mem_dumpLines {l : List Char} (h : l ∈ dumpLines useFile S) :
    '\n' ∉ l := by
  have hrule : '\n' ∉ rule := by decide
  rw [dumpLines, List.mem_append, List.mem_cons, List.mem_singleton, List.mem_map] at h
  rcases h with (rfl | ⟨s, -, rfl⟩) | rfl
  · exact hrule
  · exact Site.newline_notMem_dumpLine
  · exact hrule

lemma lines_dump (useFile : Bool) (S : SiteId → Site) :
    lines (dump useFile S) = dumpLines useFile S := by
  rw [dump_eq_unlines]
  exact lines_unlines fun _ => newline_notMem_of_mem_dumpLines

/-- The lines of the dump determine the values of all copies. -/
lemma dumpLines_eq_iff : dumpLines useFile S = dumpLines useFile S' ↔
    ∀ v, ∀ s ∈ copies v, ((S s).vars v).value = ((S' s).vars v).value := by
  rw [dumpLines, dumpLines, List.append_cancel_right_eq, List.cons.injEq, eq_self, true_and,
    List.map_inj_left]
  simp only [SiteId.mem_all, true_implies, Site.dumpLine_eq_iff]
  exact forall_comm

/-- Two dumps are equal exactly when all copies have the same values. -/
lemma dump_eq_iff : dump useFile S = dump useFile S' ↔
    ∀ v, ∀ s ∈ copies v, ((S s).vars v).value = ((S' s).vars v).value := by
  rw [← dumpLines_eq_iff]
  refine ⟨fun h => ?_, fun h => by rw [dump_eq_unlines, dump_eq_unlines, h]⟩
  rw [← lines_dump, h, lines_dump]

lemma ne_nil_of_mem_dumpLines {l : List Char} (h : l ∈ dumpLines useFile S) : l ≠ [] := by
  rintro rfl
  rw [dumpLines, List.mem_append, List.mem_cons, List.mem_singleton, List.mem_map] at h
  have hrule : [] ≠ rule := by decide
  rcases h with (h | ⟨s, -, h⟩) | h
  · exact hrule h
  · have hhead : Site.dumpHead useFile s ≠ [] := by cases useFile <;> simp [Site.dumpHead]
    exact hhead (List.append_eq_nil_iff.mp (List.append_eq_nil_iff.mp h).1).1
  · exact hrule h

/-- Two lines that follow each other are different. -/
lemma isChain_dumpLines : (dumpLines useFile S).IsChain (· ≠ ·) := by
  have hsites : (SiteId.all.map fun s => (S s).dumpLine useFile s).IsChain (· ≠ ·) := by
    have hall : SiteId.all.Pairwise (· ≠ ·) := by decide
    rw [List.isChain_map]
    exact hall.isChain.imp fun s s' hne => Site.dumpLine_ne hne
  rw [dumpLines, List.isChain_append, List.isChain_cons]
  refine ⟨⟨fun l hl => ?_, hsites⟩, List.isChain_singleton _, fun l hl l' hl' => ?_⟩
  · obtain ⟨s, -, rfl⟩ := List.mem_map.mp (List.mem_of_head? hl)
    exact Site.dumpLine_ne_rule.symm
  · have hne : SiteId.all.map (fun s => (S s).dumpLine useFile s) ≠ [] := by
      rw [Ne, List.map_eq_nil_iff]
      decide
    rw [List.head?_cons, Option.mem_some_iff] at hl'
    rw [List.getLast?_cons_of_ne_nil hne] at hl
    obtain ⟨s, -, rfl⟩ := List.mem_map.mp (List.mem_of_getLast? hl)
    exact hl' ▸ Site.dumpLine_ne_rule

/-- A line that the output misses is not what the output leaves behind. -/
lemma ne_leftover {l : List Char} (h : lines t ++ [l] <+: dumpLines useFile S) :
    l ≠ leftover t := by
  have hnil : l ≠ [] := ne_nil_of_mem_dumpLines (h.subset (by simp))
  rw [leftover, lastLine]
  split_ifs with hterm
  · exact hnil
  · rcases List.eq_nil_or_concat' (lines t) with ht | ⟨M, a, ht⟩
    · rwa [ht]
    · have hchain := isChain_dumpLines.prefix h
      rw [ht, List.append_assoc, List.singleton_append, List.isChain_append_cons_cons] at hchain
      rw [ht, List.getLastD_concat]
      exact hchain.2.1.symm

/-- A dump without its final newline has the same lines, and does not end its last one. -/
lemma dropLast_dump (useFile : Bool) (S : SiteId → Site) : lines (dump useFile S).dropLast =
    dumpLines useFile S ∧ terminated (dump useFile S).dropLast = false := by
  have hrule : lines rule = [rule] ∧ terminated rule = false := by decide
  have htext : (dump useFile S).dropLast =
      unlines (rule :: SiteId.all.map fun s => (S s).dumpLine useFile s) ++ rule := by
    rw [dump_eq_unlines, dumpLines, unlines, List.flatMap_append, List.flatMap_singleton,
      ← List.append_assoc, List.dropLast_concat, unlines]
  rw [htext, terminated_unlines_append, lines_unlines_append, hrule.1, hrule.2]
  · exact ⟨rfl, rfl⟩
  · exact fun l hl => newline_notMem_of_mem_dumpLines
      (show l ∈ dumpLines useFile S from List.mem_append_left _ hl)

/-- **The checker on an expected dump.** If the last line of the file is not terminated, the outputs
that begin with its lines pass; of the dumps these are the ones of sites whose copies have the same
values. If it is terminated, nothing passes. -/
theorem check_dump (S : SiteId → Site) :
    (∀ t, executeTestCaseCheck (dump true S).dropLast t = true ↔
      lines (dump true S) <+: lines t) ∧
    (∀ S', executeTestCaseCheck (dump true S).dropLast (dump true S') = true ↔
      ∀ v, ∀ s ∈ copies v, ((S s).vars v).value = ((S' s).vars v).value) ∧
    ∀ t, executeTestCaseCheck (dump true S) t = false := by
  obtain ⟨hlines, hterm⟩ := dropLast_dump true S
  have hcheck : ∀ t, executeTestCaseCheck (dump true S).dropLast t = true ↔
      lines (dump true S) <+: lines t := by
    intro t
    rw [executeTestCaseCheck_eq_true, hlines, hterm, lines_dump, and_iff_left (Or.inl rfl)]
    exact or_iff_left fun ⟨l, h, hl⟩ => ne_leftover h hl
  refine ⟨hcheck, fun S' => ?_, fun t => ?_⟩
  · have hlen : (dumpLines true S).length = (dumpLines true S').length := by simp [dumpLines]
    rw [hcheck, lines_dump, lines_dump, ← dumpLines_eq_iff]
    exact ⟨fun h => h.eq_of_length hlen, fun h => h ▸ List.prefix_rfl⟩
  · rw [← Bool.not_eq_true, executeTestCaseCheck_eq_true, lines_dump, dump_eq_unlines,
      terminated_unlines, lastLine, lines_unlines fun _ => newline_notMem_of_mem_dumpLines]
    rintro (⟨-, h | h⟩ | ⟨l, h, hl⟩)
    · cases h
    · rw [dumpLines, List.getLastD_concat] at h
      exact absurd h (by decide)
    · exact ne_leftover h hl

end SiteManager

end RepCRec
