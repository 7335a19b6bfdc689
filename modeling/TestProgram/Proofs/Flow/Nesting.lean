import TestProgram.Proofs.Flow.Additions

/-!
# Jumps over lines

The jumps that a program adds are numbered (`Addition.Block`), and the number is part of the
label that a jump goes to, so jumps are told apart by their labels (`skipLabel_inj`). All
lines of the scope that a jump belongs to are between the jump and its landing, and nothing
else is (`Block.framed`). So a jump that starts between another one and its landing also
ends there.
-/

namespace TestProgram

/-! ## Labels -/

theorem toList_skipLabel (word : String) (number : Nat) :
    (skipLabel word number).toList = ("skip_" ++ word).toList ++ '_' :: Nat.toDigits 10 number := by
  have hlabel : skipLabel word number = "skip_" ++ word ++ "_" ++ toString number := rfl
  rw [hlabel, String.toList_append, String.toList_append, Nat.toString_eq_repr, Nat.toList_repr, List.append_assoc]
  rfl

/-- The number is what follows the last underscore. -/
theorem skipLabel_inj {word word' : String} {number number' : Nat}
    (h : skipLabel word number = skipLabel word' number') : number = number' := by
  have hdigits (word : String) (number : Nat) :
      (skipLabel word number).toList.reverse.takeWhile (· ≠ '_') = (Nat.toDigits 10 number).reverse := by
    have hno : ∀ c ∈ (Nat.toDigits 10 number).reverse, decide (c ≠ '_') = true := by
      intro c hc
      refine decide_eq_true fun heq => ?_
      rw [List.mem_reverse, heq] at hc
      exact Nat.underscore_not_in_toDigits hc
    rw [toList_skipLabel, List.reverse_append, List.reverse_cons, List.append_assoc, List.takeWhile_append_of_pos hno,
      List.singleton_append, List.takeWhile_cons_of_neg (by decide), List.append_nil]
  have hsame : Nat.toDigits 10 number = Nat.toDigits 10 number' := by
    rw [← List.reverse_inj, ← hdigits word number, ← hdigits word' number', h]
  rw [← Nat.ofDigitChars_ten_toDigits (n := number), hsame, Nat.ofDigitChars_ten_toDigits]

/-! ## Lines between a jump and its landing -/

/-- The jumps over lines under scopes, by word and number. -/
def OpenScope.skips (path : List OpenScope) : List (String × Nat) :=
  path.filterMap fun s => s.scope.unlessWord?.map fun word => (word, s.number)

theorem OpenScope.map_skips (path : List OpenScope) : (skips path).map Prod.fst = unlessWords path := by
  rw [skips, List.map_filterMap, unlessWords]
  congr 1
  funext s
  rw [Option.map_map]
  exact Option.map_id'

theorem OpenScope.skips_cons_of_none {s : FlowScope} (h : s.unlessWord? = none) (number : Nat) (path : List OpenScope) :
    skips (⟨s, number⟩ :: path) = skips path :=
  List.filterMap_cons_none (congrArg (Option.map _) h)

namespace Addition

/-- The jump that the line starts or ends. -/
def skip? : Addition → Option (String × Nat)
  | asked _ _ _ _ => none
  | jump _ word number | landing _ word number => some (word, number)

/-- The line starts or ends a jump, or is one that it goes over. -/
def PartOf (a : Addition) (skip : String × Nat) : Prop :=
  a.skip? = some skip ∨ skip ∈ OpenScope.skips a.path

variable {path : List OpenScope} {n m number : Nat} {additions : List Addition} {a : Addition} {skip : String × Nat}

namespace Block

theorem le (h : Block path n additions m) : n ≤ m := by
  induction h with
  | none | asked => exact Nat.le_refl _
  | append _ _ h h' => exact Nat.le_trans h h'
  | scope _ _ h => exact h
  | skip _ h => exact Nat.le_of_succ_le h

/-- Jumps have the numbers of the block. -/
theorem skip?_range (h : Block path n additions m) (ha : a ∈ additions) (hskip : a.skip? = some skip) :
    n < skip.2 ∧ skip.2 ≤ m := by
  induction h with
  | none => cases ha
  | asked =>
    obtain rfl := List.mem_singleton.mp ha
    cases hskip
  | append h h' hin hin' =>
    rcases List.mem_append.mp ha with ha | ha
    · exact ⟨(hin ha).1, Nat.le_trans (hin ha).2 h'.le⟩
    · exact ⟨Nat.lt_of_le_of_lt h.le (hin' ha).1, (hin' ha).2⟩
  | scope _ _ hin => exact hin ha
  | skip h hin =>
    have hends : skip.2 = _ + 1 → _ < skip.2 ∧ skip.2 ≤ _ := fun heq => by
      rw [heq]
      exact ⟨Nat.lt_succ_self _, h.le⟩
    simp only [List.cons_append, List.mem_cons, List.mem_append, List.not_mem_nil, or_false] at ha
    rcases ha with rfl | ha | rfl
    · obtain rfl := Option.some.inj hskip
      exact hends rfl
    · exact ⟨Nat.lt_of_succ_lt (hin ha).1, (hin ha).2⟩
    · obtain rfl := Option.some.inj hskip
      exact hends rfl

/-- So have the jumps over its lines, but for those that go over all of it. -/
theorem skips_range (h : Block path n additions m) (ha : a ∈ additions) (hskip : skip ∈ OpenScope.skips a.path) :
    skip ∈ OpenScope.skips path ∨ n < skip.2 ∧ skip.2 ≤ m := by
  induction h with
  | none => cases ha
  | asked =>
    obtain rfl := List.mem_singleton.mp ha
    exact .inl hskip
  | append h h' hin hin' =>
    rcases List.mem_append.mp ha with ha | ha
    · exact (hin ha).imp_right fun hrange => ⟨hrange.1, Nat.le_trans hrange.2 h'.le⟩
    · exact (hin' ha).imp_right fun hrange => ⟨Nat.lt_of_le_of_lt h.le hrange.1, hrange.2⟩
  | scope hs _ hin =>
    rw [← OpenScope.skips_cons_of_none hs]
    exact hin ha
  | skip h hin =>
    simp only [List.cons_append, List.mem_cons, List.mem_append, List.not_mem_nil, or_false] at ha
    rcases ha with rfl | ha | rfl
    · exact .inl hskip
    · rcases hin ha with hpath | hrange
      · rcases List.mem_cons.mp hpath with rfl | hpath
        · exact .inr ⟨Nat.lt_succ_self _, h.le⟩
        · exact .inl hpath
      · exact .inr ⟨Nat.lt_of_succ_lt hrange.1, hrange.2⟩
    · exact .inl hskip

theorem mem_skips (h : Block path n additions m) (ha : a ∈ additions) (hskip : skip ∈ OpenScope.skips path) :
    skip ∈ OpenScope.skips a.path := by
  induction h with
  | none => cases ha
  | asked =>
    obtain rfl := List.mem_singleton.mp ha
    exact hskip
  | append _ _ hin hin' =>
    rcases List.mem_append.mp ha with ha | ha
    · exact hin ha hskip
    · exact hin' ha hskip
  | scope hs _ hin =>
    rw [← OpenScope.skips_cons_of_none hs] at hskip
    exact hin ha hskip
  | skip _ hin =>
    simp only [List.cons_append, List.mem_cons, List.mem_append, List.not_mem_nil, or_false] at ha
    rcases ha with rfl | ha | rfl
    · exact hskip
    · exact hin ha (List.mem_cons_of_mem _ hskip)
    · exact hskip

end Block

/-- The jump, the lines that it goes over, and its landing. No other lines are concerned. -/
def Framed (skip : String × Nat) (additions : List Addition) : Prop :=
  ∃ path before inside after,
    additions = before ++ .jump path skip.1 skip.2 :: (inside ++ .landing path skip.1 skip.2 :: after) ∧
      (∀ a ∈ inside, skip ∈ OpenScope.skips a.path ∧ ∀ word, a.skip? ≠ some (word, skip.2)) ∧
        (∀ word, (word, skip.2) ∉ OpenScope.skips path) ∧ ∀ a ∈ before ++ after, ∀ word, ¬ a.PartOf (word, skip.2)

theorem Framed.extend (h : Framed skip additions) (before after : List Addition)
    (hothers : ∀ a ∈ before ++ after, ∀ word, ¬ a.PartOf (word, skip.2)) :
    Framed skip (before ++ additions ++ after) := by
  obtain ⟨path, first, inside, last, rfl, hinside, hpath, hrest⟩ := h
  refine ⟨path, before ++ first, inside, last ++ after, ?_, hinside, hpath, fun a ha => ?_⟩
  · simp only [List.append_assoc, List.cons_append]
  · simp only [List.mem_append] at ha hrest hothers
    rcases ha with (ha | ha) | ha | ha
    · exact hothers a (.inl ha)
    · exact hrest a (.inl ha)
    · exact hrest a (.inr ha)
    · exact hothers a (.inr ha)

namespace Block

theorem range (h : Block path n additions m) (ha : a ∈ additions) (hskip : a.PartOf skip) :
    skip ∈ OpenScope.skips path ∨ n < skip.2 ∧ skip.2 ≤ m :=
  hskip.elim (fun hskip => .inr (h.skip?_range ha hskip)) (h.skips_range ha)

/-- Lines are not part of jumps of other blocks. -/
theorem not_partOf (h : Block path n additions m) (ha : a ∈ additions)
    (hpath : ∀ word, (word, number) ∉ OpenScope.skips path) (hnumber : number ≤ n ∨ m < number) (word : String) :
    ¬ a.PartOf (word, number) := by
  intro hpart
  rcases h.range ha hpart with hover | ⟨hlow, hhigh⟩
  · exact hpath word hover
  · rcases hnumber with hle | hlt
    · exact Nat.not_lt_of_le hle hlow
    · exact Nat.not_le_of_lt hlt hhigh

/-- The jump that a block is put under frames its lines. -/
theorem framed_skip {word : String} (h : Block (⟨.unlessEnable word, n + 1⟩ :: path) (n + 1) additions m)
    (hpath : ∀ skip ∈ OpenScope.skips path, skip.2 ≤ n) :
    Framed (word, n + 1) (.jump path word (n + 1) :: additions ++ [.landing path word (n + 1)]) := by
  refine ⟨path, [], additions, [], rfl, fun a ha => ⟨h.mem_skips ha (List.mem_cons_self ..), fun word' hskip => ?_⟩,
    fun word' hover => ?_, nofun⟩
  · exact Nat.lt_irrefl _ (h.skip?_range ha hskip).1
  · exact Nat.not_succ_le_self n (hpath (word', n + 1) hover)

/-- Each jump that a line is part of is framed, unless it goes over all lines. -/
theorem framed (h : Block path n additions m) (hpath : ∀ skip ∈ OpenScope.skips path, skip.2 ≤ n)
    (ha : a ∈ additions) (hpart : a.PartOf skip) : skip ∈ OpenScope.skips path ∨ Framed skip additions := by
  induction h with
  | none => cases ha
  | asked =>
    obtain rfl := List.mem_singleton.mp ha
    exact .inl (hpart.resolve_left nofun)
  | @append path n additions m additions' k h h' hin hin' =>
    have hnone (hlow : n < skip.2) (word : String) : (word, skip.2) ∉ OpenScope.skips path :=
      fun hover => Nat.not_le_of_lt hlow (hpath (word, skip.2) hover)
    rcases List.mem_append.mp ha with ha | ha
    · rcases h.range ha hpart with hover | ⟨hlow, hhigh⟩
      · exact .inl hover
      · exact (hin hpath ha).imp_right fun hframed =>
          hframed.extend [] additions' fun b hb => h'.not_partOf hb (hnone hlow) (.inl hhigh)
    · rcases h'.range ha hpart with hover | ⟨hlow, hhigh⟩
      · exact .inl hover
      · refine (hin' (fun skip hover => Nat.le_trans (hpath skip hover) h.le) ha).imp_right fun hframed => ?_
        rw [← List.append_nil (additions ++ additions')]
        refine hframed.extend additions [] fun b hb => ?_
        rw [List.append_nil] at hb
        exact h.not_partOf hb (hnone (Nat.lt_of_le_of_lt h.le hlow)) (.inr hlow)
  | scope hs _ hin =>
    rw [← OpenScope.skips_cons_of_none hs] at hpath ⊢
    exact hin hpath ha
  | @skip path n additions m word h hin =>
    by_cases hown : skip = (word, n + 1)
    · rw [hown]
      exact .inr (h.framed_skip hpath)
    have hends (hpart : some (word, n + 1) = some skip ∨ skip ∈ OpenScope.skips path) : skip ∈ OpenScope.skips path :=
      hpart.resolve_left fun heq => hown (Option.some.inj heq).symm
    have hover (hskip : skip ∈ OpenScope.skips (⟨.unlessEnable word, n + 1⟩ :: path)) : skip ∈ OpenScope.skips path :=
      (List.mem_cons.mp hskip).resolve_left hown
    have hinner : ∀ skip ∈ OpenScope.skips (⟨.unlessEnable word, n + 1⟩ :: path), skip.2 ≤ n + 1 :=
      List.forall_mem_cons.mpr ⟨Nat.le_refl _, fun skip hskip => Nat.le_succ_of_le (hpath skip hskip)⟩
    simp only [List.cons_append, List.mem_cons, List.mem_append, List.not_mem_nil, or_false] at ha
    rcases ha with rfl | ha | rfl
    · exact .inl (hends hpart)
    · rcases h.range ha hpart with hskip | ⟨hlow, -⟩
      · exact .inl (hover hskip)
      · refine (hin hinner ha).imp hover fun hframed =>
          hframed.extend [.jump path word (n + 1)] [.landing path word (n + 1)] fun b hb word' hpart' => ?_
        have hother : some (word, n + 1) = some (word', skip.2) ∨ (word', skip.2) ∈ OpenScope.skips path := by
          simp only [List.cons_append, List.nil_append, List.mem_cons, List.not_mem_nil, or_false] at hb
          rcases hb with rfl | rfl <;> exact hpart'
        rcases hother with heq | hskip
        · rw [← congrArg Prod.snd (Option.some.inj heq)] at hlow
          exact Nat.lt_irrefl _ hlow
        · exact Nat.not_succ_le_self n (Nat.le_trans (Nat.le_of_lt hlow) (hpath (word', skip.2) hskip))
    · exact .inl (hends hpart)

end Block

/-! ## Positions -/

/-- A jump from the position `i` to the position `j` goes over the lines between them. -/
structure Spans (additions : List Addition) (skip : String × Nat) (i j : Nat) : Prop where
  lt : i < j
  ends : ∃ path, additions[i]? = some (.jump path skip.1 skip.2) ∧ additions[j]? = some (.landing path skip.1 skip.2)
  inside : ∀ {p a}, additions[p]? = some a → (skip ∈ OpenScope.skips a.path ↔ i < p ∧ p < j)
  only : ∀ {p a word}, additions[p]? = some a → a.skip? = some (word, skip.2) → p = i ∨ p = j

theorem getElem?_framed {α : Type} {before inside after : List α} {first last a : α} {p : Nat}
    (h : (before ++ first :: (inside ++ last :: after))[p]? = some a) :
    a ∈ before ∧ p < before.length ∨ a = first ∧ p = before.length ∨
      a ∈ inside ∧ before.length < p ∧ p < before.length + 1 + inside.length ∨
        a = last ∧ p = before.length + 1 + inside.length ∨ a ∈ after ∧ before.length + 1 + inside.length < p := by
  rw [List.getElem?_append] at h
  split at h
  · rename_i hp
    exact .inl ⟨List.mem_of_getElem? h, hp⟩
  · rename_i hp
    rw [List.getElem?_cons] at h
    split at h
    · rename_i hzero
      exact .inr (.inl ⟨(Option.some.inj h).symm, by omega⟩)
    · rename_i hpos
      rw [List.getElem?_append] at h
      split at h
      · rename_i hin
        exact .inr (.inr (.inl ⟨List.mem_of_getElem? h, by omega, by omega⟩))
      · rename_i hout
        rw [List.getElem?_cons] at h
        split at h
        · exact .inr (.inr (.inr (.inl ⟨(Option.some.inj h).symm, by omega⟩)))
        · exact .inr (.inr (.inr (.inr ⟨List.mem_of_getElem? h, by omega⟩)))

theorem Framed.spans (h : Framed skip additions) : ∃ i j, Spans additions skip i j := by
  obtain ⟨path, before, inside, after, rfl, hinside, hpath, hothers⟩ := h
  have hnot {a : Addition} (ha : a ∈ before ∨ a ∈ after) := hothers a (List.mem_append.mpr ha)
  refine ⟨before.length, before.length + 1 + inside.length, by omega, ⟨path, ?_, ?_⟩, fun {p a} ha => ?_,
    fun {p a word} ha hskip => ?_⟩
  · rw [List.getElem?_append_right (Nat.le_refl _), Nat.sub_self]
    rfl
  · rw [List.getElem?_append_right (by omega), Nat.add_assoc, Nat.add_sub_cancel_left, Nat.add_comm,
      List.getElem?_cons_succ, List.getElem?_append_right (Nat.le_refl _), Nat.sub_self]
    rfl
  · rcases getElem?_framed ha with ⟨ha, hp⟩ | ⟨rfl, hp⟩ | ⟨ha, hp⟩ | ⟨rfl, hp⟩ | ⟨ha, hp⟩
    · exact iff_of_false (fun hskip => hnot (.inl ha) skip.1 (.inr hskip)) (by omega)
    · exact iff_of_false (hpath skip.1) (by omega)
    · exact iff_of_true (hinside a ha).1 hp
    · exact iff_of_false (hpath skip.1) (by omega)
    · exact iff_of_false (fun hskip => hnot (.inr ha) skip.1 (.inr hskip)) (by omega)
  · rcases getElem?_framed ha with ⟨ha, hp⟩ | ⟨rfl, hp⟩ | ⟨ha, hp⟩ | ⟨rfl, hp⟩ | ⟨ha, hp⟩
    · exact absurd (.inl hskip) (hnot (.inl ha) word)
    · exact .inl hp
    · exact absurd hskip ((hinside a ha).2 word)
    · exact .inr hp
    · exact absurd (.inl hskip) (hnot (.inr ha) word)

namespace Spans

variable {i j p : Nat} {word : String}

theorem eq_start (h : Spans additions skip i j) (hp : additions[p]? = some (.jump path word skip.2)) : p = i := by
  obtain ⟨path', -, hlanding⟩ := h.ends
  rcases h.only hp rfl with rfl | rfl
  · rfl
  · cases hlanding.symm.trans hp

theorem eq_landing (h : Spans additions skip i j) (hp : additions[p]? = some (.landing path word skip.2)) : p = j := by
  obtain ⟨path', hjump, -⟩ := h.ends
  rcases h.only hp rfl with rfl | rfl
  · cases hjump.symm.trans hp
  · rfl

end Spans

end Addition

/-- A jump that a line of a draft is part of goes over the lines of its scope. -/
theorem FlowOperation.spans_draft (name : String) (ops : List FlowOperation) {a : Addition} {skip : String × Nat}
    (ha : a ∈ draftAdditions name ops) (hpart : a.PartOf skip) :
    ∃ i j, Addition.Spans (draftAdditions name ops) skip i j := by
  have hframed := (grown_draft name ops).block.framed (List.forall_mem_nil _) ha hpart
  exact (hframed.resolve_left List.not_mem_nil).spans

end TestProgram
