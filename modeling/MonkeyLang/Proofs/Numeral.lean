import MonkeyLang.Proofs.Grammar

/-!
Runs of ASCII digits as numerals: one of at most 4300 digits is read as the number that it writes.
-/

namespace MonkeyLang.Numeral

private theorem toNat_bounds {c : Char} (h : '0' ≤ c ∧ c ≤ '9') : 48 ≤ c.toNat ∧ c.toNat ≤ 57 :=
  ⟨h.1, h.2⟩

theorem digitValue?_ascii {c : Char} (h : '0' ≤ c ∧ c ≤ '9') :
    digitValue? c = some (c.toNat - '0'.toNat) := by
  obtain ⟨h0, h9⟩ := toNat_bounds h
  have hzero : zeros.find? (fun z => z ≤ c.toNat && c.toNat < z + 10) = some 48 := by
    unfold zeros
    rw [List.find?_cons_of_pos]
    simp only [Bool.and_eq_true, decide_eq_true_eq]
    omega
  unfold digitValue?
  rw [hzero]
  rfl

theorem isMargin_ascii {c : Char} (h : '0' ≤ c ∧ c ≤ '9') : isMargin c = false := by
  obtain ⟨h0, h9⟩ := toNat_bounds h
  have hblank : Text.isBlank c = false := by
    simp only [Text.isBlank, Bool.or_eq_false_iff, Bool.and_eq_false_iff, beq_eq_false_iff_ne,
      decide_eq_false_iff_not, ne_eq]
    omega
  simp [isMargin, hblank]

theorem digits?_ascii : ∀ {cs : List Char}, cs ≠ [] → (∀ c ∈ cs, '0' ≤ c ∧ c ≤ '9') →
    digits? cs = some (cs.map fun c => c.toNat - '0'.toNat)
  | [], h, _ => absurd rfl h
  | [c], _, hd => by simp [digits?, digitValue?_ascii (hd c (by simp))]
  | c :: d :: cs, _, hd => by
    have hc := digitValue?_ascii (hd c (by simp))
    have ih := @digits?_ascii (d :: cs) (by simp) fun x hx => hd x (by simp [hx])
    have hne : d ≠ '_' := by
      rintro rfl
      exact absurd (hd '_' (by simp)) (by decide)
    rw [digits?.eq_4 _ _ _ hne, hc, ih]
    rfl

theorem trimWhere_ascii {cs : List Char} (hd : ∀ c ∈ cs, '0' ≤ c ∧ c ≤ '9') :
    Text.trimWhere isMargin cs = cs := by
  have keep : ∀ l : List Char, (∀ c ∈ l, '0' ≤ c ∧ c ≤ '9') → l.dropWhile isMargin = l := by
    intro l hl
    cases l with
    | nil => rfl
    | cons c l => simp [isMargin_ascii (hl c (by simp))]
  unfold Text.trimWhere
  rw [keep cs hd, keep cs.reverse fun c hc => hd c (List.mem_reverse.1 hc), List.reverse_reverse]

/-- A run of digits has no sign to be taken for. -/
theorem read?_eq_natural? {cs : List Char} (hd : ∀ c ∈ cs, '0' ≤ c ∧ c ≤ '9') :
    read? cs = (natural? cs).map Int.ofNat := by
  unfold read?
  rw [trimWhere_ascii hd]
  split
  · exact absurd (hd '-' List.mem_cons_self) (by decide)
  · exact absurd (hd '+' List.mem_cons_self) (by decide)
  · rfl

theorem read?_nonneg {cs : List Char} (hd : ∀ c ∈ cs, '0' ≤ c ∧ c ≤ '9') {n : Int}
    (h : read? cs = some n) : 0 ≤ n := by
  rw [read?_eq_natural? hd] at h
  obtain ⟨k, -, rfl⟩ := Option.map_eq_some_iff.mp h
  exact Int.natCast_nonneg k

theorem read?_ascii {cs : List Char} (h : cs ≠ []) (hlen : cs.length ≤ maxDigits)
    (hd : ∀ c ∈ cs, '0' ≤ c ∧ c ≤ '9') :
    read? cs = some (Int.ofNat (ofDigits (cs.map fun c => c.toNat - '0'.toNat))) := by
  have hnat : natural? cs = some (ofDigits (cs.map fun c => c.toNat - '0'.toNat)) := by
    simp [natural?, digits?_ascii h hd, hlen]
  rw [read?_eq_natural? hd, hnat]
  rfl

/-- A numeral has not more digits than it may have. -/
theorem length_le_of_read? {cs : List Char} (hd : ∀ c ∈ cs, '0' ≤ c ∧ c ≤ '9')
    (h : read? cs ≠ none) : cs.length ≤ maxDigits := by
  cases cs with
  | nil => exact Nat.zero_le _
  | cons c cs =>
    rw [read?_eq_natural? hd, ne_eq, Option.map_eq_none_iff] at h
    refine Decidable.byContradiction fun hlong => h ?_
    have hlong' : ¬cs.length + 1 ≤ maxDigits := hlong
    simp [natural?, digits?_ascii (List.cons_ne_nil c cs) hd, hlong']

theorem ofDigits_eq_decimal (text : String) :
    ofDigits (text.toList.map fun c => c.toNat - '0'.toNat) = Grammar.decimal text := by
  unfold ofDigits Grammar.decimal
  rw [List.foldl_map]

/-- A run of digits is read as the number that it writes. -/
theorem read?_digits {text : String} (h : Grammar.Digits text) :
    read? text.toList = some (Int.ofNat (Grammar.decimal text)) := by
  obtain ⟨hne, hlen, hd⟩ := h
  rw [read?_ascii hne hlen hd, ofDigits_eq_decimal]

/-! ## Numbers as they are written -/

/-- The size of a word is far from the most digits that a numeral may have. -/
theorem digits_repr {n : Nat} (h : n ≤ 0x8000000000000000) : Grammar.Digits n.repr := by
  unfold Grammar.Digits
  rw [Nat.toList_repr]
  refine ⟨Nat.toDigits_ne_nil, ?_, fun c hc => ?_⟩
  · have hlength : (Nat.toDigits 10 n).length ≤ 19 := by
      rw [Nat.length_toDigits_le_iff (by decide) (by decide)]
      omega
    omega
  · have := Nat.isDigit_of_mem_toDigits (by decide) (by decide) hc
    simp only [Char.isDigit, Bool.and_eq_true, decide_eq_true_eq] at this
    exact this

theorem decimal_repr (n : Nat) : Grammar.decimal n.repr = n := by
  unfold Grammar.decimal
  rw [Nat.toList_repr]
  exact Nat.ofDigitChars_toDigits (by decide) (by decide)

end MonkeyLang.Numeral
