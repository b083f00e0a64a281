import RepCRec.Engine.Instruction

/-!
The parser of instructions.

* `parse_text`: it reads every instruction back from its canonical text.
* `parse_inBounds_iff`: it stays within the line and the tokens exactly when a line that is read as
  a read or write has a closing parenthesis behind its first fields, and as many fields as are
  looked at.
-/

namespace RepCRec

open Container (StringFault bind_eq_ok bind_eq_error ok_bind)
open Container.StdString

namespace Instruction

variable {insr p b u token : List Char} {index : ℕ} {tokens : List (List Char)}

/-! ### The loop over the characters -/

/-- The loop stops at the first closing parenthesis, with the tokens between the commas. -/
lemma tokenLoop_append (hb : ')' ∉ b) : tokenLoop (b ++ ')' :: u) index token tokens =
    .ok (index + b.length, tokens ++ (b.splitOn ',').modifyHead (token ++ ·)) := by
  induction b generalizing index token tokens with
  | nil => simp [tokenLoop]
  | cons c b ih =>
      have hc : c ≠ ')' := fun heq => hb (heq ▸ List.mem_cons_self)
      have hb' : ')' ∉ b := fun h => hb (List.mem_cons_of_mem c h)
      have hlen : index + 1 + b.length = index + (b.length + 1) := by omega
      rw [List.cons_append, tokenLoop, if_neg hc, List.splitOn_cons_eq_if_modifyHead,
        List.length_cons, ← hlen]
      obtain ⟨t, ts, ht⟩ := List.exists_cons_of_ne_nil (List.splitOn_ne_nil ',' b)
      by_cases hcomma : c = ','
      · rw [if_pos hcomma, if_pos (by simp [hcomma]), ih hb', ht]
        simp
      · rw [if_neg hcomma, if_neg (by simp [hcomma]), ih hb', ht]
        simp

/-- Without a closing parenthesis the loop leaves the line. -/
lemma tokenLoop_of_notMem {s : List Char} (hs : ')' ∉ s) :
    tokenLoop s index token tokens = .error .outOfBounds := by
  induction s generalizing index token tokens with
  | nil => rfl
  | cons c s ih =>
      have hc : c ≠ ')' := fun heq => hs (heq ▸ List.mem_cons_self)
      have hs' : ')' ∉ s := fun h => hs (List.mem_cons_of_mem c h)
      rw [tokenLoop, if_neg hc]
      split_ifs
      · exact ih hs'
      · exact ih hs'

lemma tokenize_of_append (hd : insr.drop (tokenStart insr) = b ++ ')' :: u)
    (hb : ')' ∉ b) :
    tokenize insr = .ok (tokenStart insr + b.length, b.splitOn ',') := by
  have hlt : tokenStart insr ≤ insr.length := by
    by_contra hgt
    rw [List.drop_eq_nil_of_le (by omega)] at hd
    simp at hd
  have hel : elementsFrom insr (tokenStart insr) = b ++ ')' :: (u ++ [Char.ofNat 0]) := by
    rw [elementsFrom, List.drop_append_of_le_length hlt, hd, List.append_assoc, List.cons_append]
  obtain ⟨t, ts, ht⟩ := List.exists_cons_of_ne_nil (List.splitOn_ne_nil ',' b)
  rw [tokenize, hel, tokenLoop_append hb, ht]
  rfl

lemma tokenize_of_notMem (hd : ')' ∉ insr.drop (tokenStart insr)) :
    tokenize insr = .error .outOfBounds := by
  refine tokenLoop_of_notMem fun hmem => hd ?_
  rw [elementsFrom, List.drop_append] at hmem
  rcases List.mem_append.mp hmem with h | h
  · exact h
  · have h0 := List.mem_singleton.mp (List.mem_of_mem_drop h)
    exact absurd h0 (by decide)

/-! ### Reading back the canonical text -/

/-- The canonical text of an instruction. -/
def text : Instruction → List Char
  | .unknown => []
  | .begin t => "begin(T".toList ++ (decimal t ++ [')'])
  | .beginRO t => "beginRO(T".toList ++ (decimal t ++ [')'])
  | .read t v => "R(T".toList ++ (decimal t ++ ',' :: 'x' :: decimal v ++ [')'])
  | .write t v x =>
      "W(T".toList ++ (decimal t ++ ',' :: 'x' :: decimal v ++ ',' :: decimal x ++ [')'])
  | .recover s => "recover(".toList ++ (decimal s ++ [')'])
  | .fail s => "fail(".toList ++ (decimal s ++ [')'])
  | .dump => "dump()".toList
  | .finish t => "end(T".toList ++ (decimal t ++ [')'])

/-- The numbers that an instruction carries. -/
def fields : Instruction → List ℤ
  | .unknown => []
  | .begin t => [t]
  | .beginRO t => [t]
  | .read t v => [t, v]
  | .write t v x => [t, v, x]
  | .recover s => [s]
  | .fail s => [s]
  | .dump => []
  | .finish t => [t]

lemma closing_notMem_decimal (n : ℤ) : ')' ∉ decimal n := notMem_decimal (by decide) (by decide)

lemma comma_notMem_decimal (n : ℤ) : ',' ∉ decimal n := notMem_decimal (by decide) (by decide)

/-- The fields of a text begin behind the first parenthesis. -/
lemma start_append (h : '(' ∉ p) (hl : p.length < 64) :
    start (p ++ '(' :: u) = p.length + 1 := by
  rw [start, findFirstOf_append_cons h, wrap_of_lt (by omega)]

lemma stop_append (hn : ')' ∉ p) (hb : ')' ∉ b) :
    stop (p ++ '(' :: (b ++ ')' :: u)) = p.length + (b.length + 1) := by
  have h := findFirstOf_append_cons (c := ')') (s := p ++ '(' :: b) (t := u)
    (by simp [hn, hb])
  rwa [List.append_assoc, List.cons_append, List.length_append, List.length_cons] at h

/-- The number of a transaction is read back. -/
lemma parseTranId_append {n : ℤ} (hn : IsInt n) (ho : '(' ∉ p) (hc : ')' ∉ p)
    (hl : p.length < 64) : parseTranId (p ++ '(' :: 'T' :: (decimal n ++ [')'])) = .ok n := by
  have hlen := length_decimal_le hn
  have hstart := start_append (u := 'T' :: (decimal n ++ [')'])) ho hl
  have hstop : stop (p ++ '(' :: 'T' :: (decimal n ++ [')'])) =
      p.length + ((decimal n).length + 1 + 1) :=
    stop_append (b := 'T' :: decimal n) hc (by simp [closing_notMem_decimal])
  have hsub : substr (p ++ '(' :: 'T' :: (decimal n ++ [')'])) (p.length + 1 + 1)
      (decimal n).length = .ok (decimal n) := by
    simpa using substr_append (s := p ++ ['(', 'T']) (t := decimal n) (u := [')']) rfl
  have hcount : wrapSub (wrapSub (p.length + ((decimal n).length + 1 + 1)) (p.length + 1)) 1 =
      (decimal n).length := by
    rw [wrapSub_of_le (m := p.length + _) (by omega) (by omega),
      wrapSub_of_le (by omega) (by omega)]
    omega
  rw [parseTranId, hstart, hstop, hcount, wrap_of_lt (by omega), hsub, ok_bind, stoi_decimal hn]

/-- The number of a site is read back. -/
lemma parseSiteId_append {n : ℤ} (hn : IsInt n) (ho : '(' ∉ p) (hc : ')' ∉ p)
    (hl : p.length < 64) : parseSiteId (p ++ '(' :: (decimal n ++ [')'])) = .ok n := by
  have hlen := length_decimal_le hn
  have hstart := start_append (u := decimal n ++ [')']) ho hl
  have hstop := stop_append (u := []) hc (closing_notMem_decimal n)
  have hsub : substr (p ++ '(' :: (decimal n ++ [')'])) (p.length + 1) (decimal n).length =
      .ok (decimal n) := by
    simpa using substr_append (s := p ++ ['(']) (t := decimal n) (u := [')']) rfl
  have hcount : wrapSub (p.length + ((decimal n).length + 1)) (p.length + 1) =
      (decimal n).length := by
    rw [wrapSub_of_le (by omega) (by omega)]
    omega
  rw [parseSiteId, hstart, hstop, hcount, hsub, ok_bind, stoi_decimal hn]

/-- The tokens of a read or write are the texts between the commas, without the first letter. -/
lemma tokenize_append {c d : Char} (hc : c ≠ '(') (hb : ')' ∉ b) :
    ∃ index, tokenize (c :: '(' :: d :: (b ++ ')' :: u)) = .ok (index, b.splitOn ',') := by
  have hstart : start (c :: '(' :: d :: (b ++ ')' :: u)) = 2 :=
    start_append (p := [c]) (by simp [hc.symm]) (by simp)
  have htok : tokenStart (c :: '(' :: d :: (b ++ ')' :: u)) = 3 := by
    rw [tokenStart, hstart]
    rfl
  exact ⟨_, tokenize_of_append (by rw [htok]; rfl) hb⟩

/-- The number of a variable is read back. -/
lemma parseVarId_cons {n : ℤ} (hn : IsInt n) (t : List Char) (ts : List (List Char)) :
    parseVarId (t :: ('x' :: decimal n) :: ts) = .ok n := by
  have hsub : substrFrom ('x' :: decimal n) 1 = .ok (decimal n) := by
    rw [substrFrom, if_neg (by simp), List.drop_one, List.tail_cons]
  rw [parseVarId, tokenAt]
  simp only [List.getElem?_cons_succ, List.getElem?_cons_zero, ok_bind, hsub]
  exact stoi_decimal hn

/-- The kind is told by what stands before the parenthesis. -/
lemma parse_tranId (t : ℤ) :
    parse (text (.begin t)) = parseTranId (text (.begin t)) >>= (fun t => pure (.begin t)) ∧
    parse (text (.beginRO t)) = parseTranId (text (.beginRO t)) >>= (fun t => pure (.beginRO t)) ∧
    parse (text (.finish t)) = parseTranId (text (.finish t)) >>= (fun t => pure (.finish t)) := by
  refine ⟨?_, ?_, ?_⟩ <;> rw [parse] <;> rfl

lemma parse_siteId (s : ℤ) :
    parse (text (.recover s)) = parseSiteId (text (.recover s)) >>= (fun s => pure (.recover s)) ∧
    parse (text (.fail s)) = parseSiteId (text (.fail s)) >>= (fun s => pure (.fail s)) := by
  refine ⟨?_, ?_⟩ <;> rw [parse] <;> rfl

/-- **Parsing undoes printing**: every instruction is read back from its canonical text. -/
theorem parse_text (insr : Instruction) (h : ∀ n ∈ insr.fields, IsInt n) :
    parse insr.text = .ok insr := by
  cases insr with
  | unknown => rfl
  | dump => rfl
  | begin t =>
      have ht := parseTranId_append (p := "begin".toList) (h t List.mem_cons_self) (by decide)
        (by decide) (by decide)
      rw [(parse_tranId t).1, show parseTranId (text (.begin t)) = .ok t from ht]
      rfl
  | beginRO t =>
      have ht := parseTranId_append (p := "beginRO".toList) (h t List.mem_cons_self) (by decide)
        (by decide) (by decide)
      rw [(parse_tranId t).2.1, show parseTranId (text (.beginRO t)) = .ok t from ht]
      rfl
  | finish t =>
      have ht := parseTranId_append (p := "end".toList) (h t List.mem_cons_self) (by decide)
        (by decide) (by decide)
      rw [(parse_tranId t).2.2, show parseTranId (text (.finish t)) = .ok t from ht]
      rfl
  | recover s =>
      have hs := parseSiteId_append (p := "recover".toList) (h s List.mem_cons_self) (by decide)
        (by decide) (by decide)
      rw [(parse_siteId s).1, show parseSiteId (text (.recover s)) = .ok s from hs]
      rfl
  | fail s =>
      have hs := parseSiteId_append (p := "fail".toList) (h s List.mem_cons_self) (by decide)
        (by decide) (by decide)
      rw [(parse_siteId s).2, show parseSiteId (text (.fail s)) = .ok s from hs]
      rfl
  | read t v =>
      have ht : IsInt t := h t (by simp [fields])
      have hv : IsInt v := h v (by simp [fields])
      have hsplit : (decimal t ++ ',' :: 'x' :: decimal v).splitOn ',' =
          [decimal t, 'x' :: decimal v] := by
        rw [List.splitOn_append_cons_self_of_not_mem (comma_notMem_decimal t),
          List.splitOn_eq_singleton (by simp [comma_notMem_decimal])]
      obtain ⟨index, htok⟩ := tokenize_append (c := 'R') (d := 'T') (u := [])
        (b := decimal t ++ ',' :: 'x' :: decimal v) (by decide) (by simp [closing_notMem_decimal])
      have hread : parse (text (.read t v)) = parseRead (text (.read t v)) := rfl
      rw [hread, parseRead, show tokenize (text (.read t v)) = _ from htok, hsplit]
      simp only [ok_bind, tokenAt, List.getElem?_cons_zero, stoi_decimal ht, parseVarId_cons hv]
      rfl
  | write t v x =>
      have ht : IsInt t := h t (by simp [fields])
      have hv : IsInt v := h v (by simp [fields])
      have hx : IsInt x := h x (by simp [fields])
      have hsplit : (decimal t ++ ',' :: 'x' :: decimal v ++ ',' :: decimal x).splitOn ',' =
          [decimal t, 'x' :: decimal v, decimal x] := by
        rw [List.append_assoc, List.cons_append,
          List.splitOn_append_cons_self_of_not_mem (comma_notMem_decimal t),
          List.splitOn_append_cons_self_of_not_mem (by simp [comma_notMem_decimal]),
          List.splitOn_eq_singleton (comma_notMem_decimal x)]
      obtain ⟨index, htok⟩ := tokenize_append (c := 'W') (d := 'T') (u := [])
        (b := decimal t ++ ',' :: 'x' :: decimal v ++ ',' :: decimal x) (by decide)
        (by simp [closing_notMem_decimal])
      have hwrite : parse (text (.write t v x)) = parseWrite (text (.write t v x)) := rfl
      rw [hwrite, parseWrite, show tokenize (text (.write t v x)) = _ from htok, hsplit]
      simp only [ok_bind, tokenAt, List.getElem?_cons_zero, List.getElem?_cons_succ,
        stoi_decimal ht, stoi_decimal hx, parseVarId_cons hv]
      rfl

theorem parse_text_write :
    parse (text (.write (-3) 12 2147483647)) = .ok (.write (-3) 12 2147483647) :=
  parse_text _ (by decide)

/-! ### Staying within the line -/

/-- The line is taken for a read or write. -/
def IsAccess (insr : List Char) : Prop :=
  startsWith insr "W".toList = true ∨ startsWith insr "R".toList = true

/-- Nothing behind the line or the tokens is read, and the loop over the characters of a read or
write stops within the line. -/
def InBounds (insr : List Char) : Prop :=
  parse insr ≠ .error .outOfBounds ∧ (IsAccess insr → ∃ index tokens,
    tokenize insr = .ok (index, tokens) ∧ index ≤ insr.length)

/-- The text is no number, so that `stoi` throws. -/
def NoNumber (s : List Char) : Prop := ∃ e, stoi s = .error e

/-- All fields that are looked at are there. The constructor throws at the first field that is no
number; a write looks at three fields. -/
def FieldsSuffice (isWrite : Prop) : List (List Char) → Prop
  | [] => False
  | [first] => NoNumber first
  | first :: second :: others => NoNumber first ∨
      (isWrite → others ≠ [] ∨ second = [] ∨ NoNumber second.tail)

/-- A read or write has a closing parenthesis behind the letter of its transaction, and before it
the fields that are looked at. -/
def Delimited (insr : List Char) : Prop :=
  IsAccess insr → ∃ b u, insr.drop (tokenStart insr) = b ++ ')' :: u ∧ ')' ∉ b ∧
    FieldsSuffice (startsWith insr "W".toList = true) (b.splitOn ',')

/-- The fields of the other kinds are cut out of the line. -/
lemma parseTranId_ne_outOfBounds (insr : List Char) : parseTranId insr ≠ .error .outOfBounds := by
  rw [parseTranId, Ne, bind_eq_error]
  rintro (h | ⟨s, -, h⟩)
  · exact substr_ne_outOfBounds _ _ _ h
  · exact stoi_ne_outOfBounds s h

lemma parseSiteId_ne_outOfBounds (insr : List Char) : parseSiteId insr ≠ .error .outOfBounds := by
  rw [parseSiteId, Ne, bind_eq_error]
  rintro (h | ⟨s, -, h⟩)
  · exact substr_ne_outOfBounds _ _ _ h
  · exact stoi_ne_outOfBounds s h

lemma parse_of_write (h : startsWith insr "W".toList = true) : parse insr = parseWrite insr := by
  obtain ⟨u, rfl⟩ := List.isPrefixOf_iff_prefix.mp h
  rw [parse]
  rfl

lemma parse_of_read (h : startsWith insr "R".toList = true) : parse insr = parseRead insr := by
  obtain ⟨u, rfl⟩ := List.isPrefixOf_iff_prefix.mp h
  rw [parse]
  rfl

lemma not_read_of_write (h : startsWith insr "W".toList = true) :
    startsWith insr "R".toList = false := by
  obtain ⟨u, rfl⟩ := List.isPrefixOf_iff_prefix.mp h
  rfl

/-- Only reads and writes leave the line. -/
lemma parse_ne_outOfBounds (h : ¬IsAccess insr) : parse insr ≠ .error .outOfBounds := by
  have hw : ¬startsWith insr "W".toList = true := fun hw => h (Or.inl hw)
  have hr : ¬startsWith insr "R".toList = true := fun hr => h (Or.inr hr)
  have hfield : ∀ {x : Except StringFault ℤ} {f : ℤ → Instruction}, x ≠ .error .outOfBounds →
      (x >>= fun n => pure (f n)) ≠ .error .outOfBounds := by
    intro x f hx heq
    rcases bind_eq_error.mp heq with h1 | ⟨n, -, h1⟩
    · exact hx h1
    · cases h1
  rw [parse, if_neg hw, if_neg hr]
  split_ifs
  · exact hfield (parseTranId_ne_outOfBounds insr)
  · exact hfield (parseTranId_ne_outOfBounds insr)
  · exact hfield (parseTranId_ne_outOfBounds insr)
  · simp [pure, Except.pure]
  · exact hfield (parseSiteId_ne_outOfBounds insr)
  · exact hfield (parseSiteId_ne_outOfBounds insr)
  · simp [pure, Except.pure]

/-- The number of the variable is looked for in the second token. -/
lemma parseVarId_cons_cons (first second : List Char) (others : List (List Char)) :
    parseVarId (first :: second :: others) =
      if second = [] then .error .outOfRange else stoi second.tail := by
  rw [parseVarId, tokenAt]
  cases second with
  | nil => rfl
  | cons c s => rfl

/-- The constructor throws where there is no number. -/
lemma NoNumber.bind_ne {α : Type} {s : List Char} (h : NoNumber s) (f : ℤ → Except StringFault α) :
    (stoi s >>= f) ≠ .error .outOfBounds := by
  obtain ⟨e, he⟩ := h
  intro heq
  rcases bind_eq_error.mp heq with h1 | ⟨n, h1, -⟩
  · exact stoi_ne_outOfBounds s h1
  · rw [he] at h1
    cases h1

lemma exists_stoi {s : List Char} (h : ¬NoNumber s) : ∃ n, stoi s = .ok n := by
  cases hs : stoi s with
  | error e => exact absurd ⟨e, hs⟩ h
  | ok n => exact ⟨n, rfl⟩

/-- A number that is the last to be looked for. -/
lemma stoi_bind_pure_ne (s : List Char) (f : ℤ → Instruction) :
    (stoi s >>= fun n => pure (f n)) ≠ .error .outOfBounds := by
  intro heq
  rcases bind_eq_error.mp heq with h | ⟨n, -, h⟩
  · exact stoi_ne_outOfBounds s h
  · cases h

/-- A read whose tokens are found looks at two of them. -/
lemma parseRead_inBounds_iff (h : tokenize insr = .ok (index, tokens)) (hne : tokens ≠ []) :
    parseRead insr ≠ .error .outOfBounds ↔ FieldsSuffice False tokens := by
  obtain ⟨first, u, rfl⟩ := List.exists_cons_of_ne_nil hne
  have hparse : parseRead insr = stoi first >>= fun t =>
      parseVarId (first :: u) >>= fun v => pure (.read t v) := by
    rw [parseRead, h]
    rfl
  rw [hparse]
  by_cases hfirst : NoNumber first
  · refine iff_of_true (hfirst.bind_ne _) ?_
    cases u with
    | nil => exact hfirst
    | cons second others => exact Or.inl hfirst
  · obtain ⟨t, ht⟩ := exists_stoi hfirst
    rw [ht, ok_bind]
    cases u with
    | nil => exact iff_of_false (not_not_intro rfl) hfirst
    | cons second others =>
        refine iff_of_true ?_ (Or.inr False.elim)
        rw [parseVarId_cons_cons]
        split_ifs
        · simp [bind, Except.bind]
        · exact stoi_bind_pure_ne _ _

/-- A write whose tokens are found looks at three of them. -/
lemma parseWrite_inBounds_iff (h : tokenize insr = .ok (index, tokens)) (hne : tokens ≠ []) :
    parseWrite insr ≠ .error .outOfBounds ↔ FieldsSuffice True tokens := by
  obtain ⟨first, u, rfl⟩ := List.exists_cons_of_ne_nil hne
  have hparse : parseWrite insr = stoi first >>= fun t => parseVarId (first :: u) >>= fun v =>
      tokenAt (first :: u) 2 >>= fun s => stoi s >>= fun x => pure (.write t v x) := by
    rw [parseWrite, h]
    rfl
  rw [hparse]
  by_cases hfirst : NoNumber first
  · refine iff_of_true (hfirst.bind_ne _) ?_
    cases u with
    | nil => exact hfirst
    | cons second others => exact Or.inl hfirst
  obtain ⟨t, ht⟩ := exists_stoi hfirst
  rw [ht, ok_bind]
  cases u with
  | nil => exact iff_of_false (not_not_intro rfl) hfirst
  | cons second others =>
      rw [parseVarId_cons_cons]
      by_cases hnil : second = []
      · refine iff_of_true ?_ (Or.inr fun _ => Or.inr (Or.inl hnil))
        rw [if_pos hnil]
        simp [bind, Except.bind]
      rw [if_neg hnil]
      by_cases hsecond : NoNumber second.tail
      · exact iff_of_true (hsecond.bind_ne _) (Or.inr fun _ => Or.inr (Or.inr hsecond))
      obtain ⟨v, hv⟩ := exists_stoi hsecond
      rw [hv, ok_bind]
      cases others with
      | nil =>
          refine iff_of_false (not_not_intro rfl) ?_
          rintro (hno | hno)
          · exact hfirst hno
          · rcases hno trivial with hno | hno | hno
            · exact hno rfl
            · exact hnil hno
            · exact hsecond hno
      | cons third others =>
          refine iff_of_true ?_ (Or.inr fun _ => Or.inl (List.cons_ne_nil third others))
          exact stoi_bind_pure_ne third _

/-- **The parser stays within its input** exactly when the line is delimited. -/
theorem parse_inBounds_iff (insr : List Char) : InBounds insr ↔ Delimited insr := by
  by_cases hacc : IsAccess insr
  swap
  · exact iff_of_true ⟨parse_ne_outOfBounds hacc, fun h => absurd h hacc⟩ fun h => absurd h hacc
  rw [InBounds, Delimited, imp_iff_right hacc, imp_iff_right hacc]
  by_cases hmem : ')' ∈ insr.drop (tokenStart insr)
  swap
  · refine iff_of_false ?_ ?_
    · rintro ⟨-, index, tokens, h, -⟩
      rw [tokenize_of_notMem hmem] at h
      cases h
    · rintro ⟨b, u, hd, -⟩
      exact hmem (hd ▸ List.mem_append_right _ List.mem_cons_self)
  obtain ⟨b, u, hd, hb⟩ := List.eq_append_cons_of_mem hmem
  have htok := tokenize_of_append hd hb
  have hlen : tokenStart insr + b.length ≤ insr.length := by
    have h := congrArg List.length hd
    rw [List.length_drop, List.length_append, List.length_cons] at h
    omega
  have hne : b.splitOn ',' ≠ [] := List.splitOn_ne_nil _ _
  -- the text before the first closing parenthesis is determined by the line
  have huniq : ∀ {P : List (List Char) → Prop}, (∃ b' u', insr.drop (tokenStart insr) =
      b' ++ ')' :: u' ∧ ')' ∉ b' ∧ P (b'.splitOn ',')) ↔ P (b.splitOn ',') := by
    intro P
    refine ⟨?_, fun h => ⟨b, u, hd, hb, h⟩⟩
    rintro ⟨b', u', hd', hb', h⟩
    have heq := (tokenize_of_append hd' hb').symm.trans htok
    rw [Except.ok.injEq, Prod.mk.injEq] at heq
    exact heq.2 ▸ h
  rw [huniq, and_iff_left ⟨_, _, htok, hlen⟩]
  rcases hacc with hw | hr
  · rw [parse_of_write hw, parseWrite_inBounds_iff htok hne, hw]
    simp
  · have hw : startsWith insr "W".toList = false := by
      by_contra hw
      rw [not_read_of_write (by simpa using hw)] at hr
      cases hr
    rw [parse_of_read hr, parseRead_inBounds_iff htok hne, hw]
    simp

/-- **Lines that are left**: a line without parentheses, a read without the closing one, and a write
without a value. -/
theorem parse_outOfBounds : ¬InBounds "W".toList ∧ ¬InBounds "R(T1,x2".toList ∧
    ¬InBounds "W(T1,x1)".toList :=
  ⟨fun h => h.1 (by decide +kernel), fun h => h.1 (by decide +kernel),
    fun h => h.1 (by decide +kernel)⟩

end Instruction

end RepCRec
