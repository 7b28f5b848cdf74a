import PathQuery.Proofs.Graph.Active

/-!
# Proofs/Graph/Walk — fetching keeps active nodes active

A walk is a sequence of turns.  At each position the children before it have given results and those after
it are idle (`At`), and every turn keeps this (`At.batch`, `At.back`).  So a node that gives a batch holds it
together with the results it was combined with (`keeps_fetchWithin`).
-/

namespace PathQuery.Fetcher

open Node

variable {f : Fetcher} {fetch : Node → Except Failure Outcome × Node} {values : Option (List Value)}
  {n n' child child' : Node} {i : Nat} {o : Outcome} {c : Collection}

/-! ## What a child is asked for -/

theorem valuesFor_congr (hn : n.plan = n'.plan) (hr : n.progress.results = n'.progress.results)
    (hk : ∀ j, j < i → n.progress.childResults[j]? = n'.progress.childResults[j]?)
    (hc : child.plan = child'.plan) : valuesFor n i child = valuesFor n' i child' := by
  rw [valuesFor, valuesFor, hc, hr, Node.name, Node.name, hn]
  cases i with
  | zero => rfl
  | succ i => simp only [hk i (Nat.lt_succ_self i)]

theorem getElem?_setChild_self (hc : n.children[i]? = some child) (child' : Node) :
    (n.setChild i child').children[i]? = some child' :=
  List.getElem?_set_self (List.getElem?_eq_some_iff.mp hc).1

theorem getElem?_setChild_of_ne {j : Nat} (h : i ≠ j) (n child' : Node) :
    (n.setChild i child').children[j]? = n.children[j]? :=
  List.getElem?_set_ne h

/-! ## Positions of a walk -/

/-- A walk stands at a child: those before it have given results, and those after it are idle. -/
structure At (f : Fetcher) (values : Option (List Value)) (i : Nat) (n : Node) : Prop where
  formed : n.Formed
  active : Active f values n
  reached : i ≤ n.progress.childResults.length
  length_le : n.progress.childResults.length ≤ i + 1
  idle : ∀ (j : Nat) (child : Node), i < j → n.children[j]? = some child → child.Idle

theorem length_children_pos (hl : n.isLeaf = false) : 0 < n.children.length :=
  List.length_pos_iff.mpr (List.isEmpty_eq_false_iff.mp hl)

theorem start_lt (hl : n.isLeaf = false) : start n < n.children.length := by
  have := length_children_pos hl
  rw [start]
  omega

/-- A walk starts at the first child without results, or at the last. -/
theorem at_start (hf : n.Formed) (ha : Active f values n) (hl : n.isLeaf = false) :
    At f values (start n) n := by
  have hshort := ha.staged.short
  have hpos := length_children_pos hl
  refine ⟨hf, ha, by rw [start]; omega, by rw [start]; omega, fun j child hj hc => ?_⟩
  have hlt := (List.getElem?_eq_some_iff.mp hc).1
  exact ha.staged.idle j child (by rw [start] at hj; omega) hc

/-- What holds after a fetch that did not fail. -/
def Fetched (f : Fetcher) (values : Option (List Value)) (o : Outcome) (n : Node) : Prop :=
  match o with
  | .batch c => Active f values n ∧ Gave f n c
  | .pending => Active f values n
  | .exhausted => n.Idle ∨ Active f values n
  | .unfinished => True

/-- A way of fetching that keeps active nodes active. -/
def Keeps (f : Fetcher) (fetch : Node → Except Failure Outcome × Node) : Prop :=
  ∀ n values, n.Formed → Active f values n → ∀ o n', fetch n = (.ok o, n') →
    n'.Alike n ∧ Fetched f values o n'

/-- A node that was opened is active while its children are idle. -/
theorem active_of_open {past batch ahead : List Document} (ho : n.Open f values past batch ahead)
    (hk : n.progress.childResults = []) (hidle : ∀ child ∈ n.children, child.Idle) :
    Active f values n := by
  refine .node ho ⟨by simp [hk], by simp [hk], fun i child _ hget hn => ?_, fun i child _ hget => ?_⟩
    fun i child _ hget hn => ?_
  · exact absurd (hidle child (List.mem_of_getElem? hget)) hn
  · exact hidle child (List.mem_of_getElem? hget)
  · exact absurd (hidle child (List.mem_of_getElem? hget)) hn

theorem active_of_openCursor (hf : n.Formed) (hi : n.Idle)
    (h : f.openCursor values n = (.ok (), n')) : n'.Alike n ∧ Active f values n' := by
  obtain ⟨batch, ahead, ho, ha, hc, hk, -⟩ := open_of_openCursor hf.laid h
  exact ⟨ha, active_of_open ho hk fun child hmem => hi.child (hc ▸ hmem)⟩

/-- **A turn of a walk** passes over an active child or fetches from it, or it opens an idle child for
what this is asked for and fetches from it then. -/
theorem At.cases_of_turn (h : At f values i n) (hc : n.children[i]? = some child)
    (ht : f.turn fetch n i child = (.ok o, child')) :
    (∃ vals, valuesFor n i child = .ok vals ∧ Active f (some vals) child ∧
      (child.joinedStatus = .complete ∧ o = .exhausted ∧ child' = child ∨
        fetch child = (.ok o, child'))) ∨
    child.Idle ∧ ∃ vals opened, valuesFor n i child = .ok vals ∧
      f.openCursor (some vals) child = (.ok (), opened) ∧ opened.Alike child ∧
      Active f (some vals) opened ∧ fetch opened = (.ok o, child') := by
  have hformed := h.formed.child (List.mem_of_getElem? hc)
  by_cases hi : child.Idle
  · rcases turn_cases ht with ⟨hs, -⟩ | ⟨hs, -⟩ | ⟨-, vals, opened, hv, hopen, hfetch⟩
    · obtain ⟨⟩ := hi.joinedStatus.symm.trans hs
    · obtain ⟨⟩ := hi.joinedStatus.symm.trans hs
    · obtain ⟨hal, hactive⟩ := active_of_openCursor hformed hi hopen
      exact .inr ⟨hi, vals, opened, hv, hopen, hal, hactive, hfetch⟩
  · obtain ⟨-, vals, hv, hactive⟩ := h.active.exists_vals hc hi
    refine .inl ⟨vals, hv, hactive, ?_⟩
    rcases turn_cases ht with hpassed | ⟨-, hfetch⟩ | ⟨hs, -⟩
    · exact .inl hpassed
    · exact .inr hfetch
    · exact absurd hs hactive.joinedStatus_ne

variable (hkeeps : Keeps f fetch)

include hkeeps in
/-- A child's turn leaves it active for what it is asked for. -/
theorem At.turn (h : At f values i n) (hc : n.children[i]? = some child)
    (ht : f.turn fetch n i child = (.ok o, child')) :
    child'.Alike child ∧ ∃ vals, valuesFor n i child = .ok vals ∧ Fetched f (some vals) o child' := by
  have hformed := h.formed.child (List.mem_of_getElem? hc)
  rcases h.cases_of_turn hc ht with ⟨vals, hv, hactive, hend⟩ |
    ⟨-, vals, opened, hv, -, hal, hactive, hfetch⟩
  · rcases hend with ⟨-, rfl, rfl⟩ | hfetch
    · exact ⟨.refl _, vals, hv, .inr hactive⟩
    · obtain ⟨hal, hfetched⟩ := hkeeps child _ hformed hactive o child' hfetch
      exact ⟨hal, vals, hv, hfetched⟩
  · obtain ⟨hal', hfetched⟩ := hkeeps opened _ (hformed.of_alike hal.symm) hactive o child' hfetch
    exact ⟨hal'.trans hal, vals, hv, hfetched⟩

/-! ## What turns keep -/

theorem alike_after (hc : n.children[i]? = some child) (ha : child'.Alike child)
    (gave : Option Collection) : (after n i child' gave).Alike n := by
  cases gave with
  | none =>
    rw [← keepBefore_setChild]
    exact (alike_keepBefore _ i).trans (alike_setChild hc ha)
  | some c => exact (alike_keepResults _ i c).trans (alike_setChild hc ha)

variable {gave : Option Collection}

theorem length_after (h : i ≤ n.progress.childResults.length) (child' : Node) (gave : Option Collection) :
    (after n i child' gave).progress.childResults.length = i + gave.toList.length := by
  rw [after, List.length_append, List.length_take, Nat.min_eq_left h]

theorem At.childResults_after {j : Nat} (h : At f values i n) (hj : j < i) :
    (after n i child' gave).progress.childResults[j]? = n.progress.childResults[j]? := by
  have hlen : j < (n.progress.childResults.take i).length := by
    rw [List.length_take, Nat.min_eq_left h.reached]
    exact hj
  rw [after, List.getElem?_append_left hlen, List.getElem?_take_of_lt hj]

theorem At.childResults_after_self (h : At f values i n) :
    (after n i child' gave).progress.childResults[i]? = gave := by
  have hlen : (n.progress.childResults.take i).length = i := by
    rw [List.length_take, Nat.min_eq_left h.reached]
  rw [after, List.getElem?_append_right (Nat.le_of_eq hlen), hlen, Nat.sub_self]
  cases gave <;> rfl

theorem At.start_after (h : At f values i n) (hc : n.children[i]? = some child) :
    start (after n i child' none) = i := by
  have hlt := (List.getElem?_eq_some_iff.mp hc).1
  rw [start, length_after h.reached, after, List.length_set]
  simp only [Option.toList_none, List.length_nil]
  omega

theorem isLeaf_after (hc : n.children[i]? = some child) :
    (after n i child' gave).isLeaf = false := by
  have hlt := (List.getElem?_eq_some_iff.mp hc).1
  rw [isLeaf, after, List.isEmpty_eq_false_iff, ne_eq, List.set_eq_nil_iff]
  exact fun hnil => by rw [hnil] at hlt; obtain ⟨⟩ := hlt

theorem At.valuesFor_after {j : Nat} {child₁ child₂ : Node} (h : At f values i n) (hj : j ≤ i)
    (hp : child₁.plan = child₂.plan) :
    valuesFor (after n i child' gave) j child₁ = valuesFor n j child₂ :=
  valuesFor_congr rfl rfl (fun _ hk => h.childResults_after (Nat.lt_of_lt_of_le hk hj)) hp

/-- What the child at the position of a walk may have become. -/
def Settled (f : Fetcher) (n : Node) (i : Nat) (child child' : Node) (gave : Option Collection) :
    Prop :=
  (child'.Idle ∧ gave = none) ∨
    ∃ vals, valuesFor n i child = .ok vals ∧ Active f (some vals) child' ∧
      ∀ c, gave = some c → Gave f child' c

/-- Once a child was replaced, those before it are as they were and those after it are idle. -/
theorem At.child_after {j : Nat} {k : Node} (h : At f values i n) (hc : n.children[i]? = some child)
    (hk : (after n i child' gave).children[j]? = some k) :
    (j < i ∧ n.children[j]? = some k) ∨ (j = i ∧ k = child') ∨ (i < j ∧ k.Idle) := by
  rcases Nat.lt_trichotomy j i with hlt | rfl | hgt
  · exact .inl ⟨hlt, (getElem?_setChild_of_ne (Nat.ne_of_gt hlt) n child').symm.trans hk⟩
  · cases (getElem?_setChild_self hc child').symm.trans hk
    exact .inr (.inl ⟨rfl, rfl⟩)
  · have hn : n.children[j]? = some k :=
      (getElem?_setChild_of_ne (Nat.ne_of_lt hgt) n child').symm.trans hk
    exact .inr (.inr ⟨hgt, h.idle j k hgt hn⟩)

theorem At.idle_after (h : At f values i n) (hc : n.children[i]? = some child) (j : Nat) (k : Node)
    (hj : i < j) (hk : (after n i child' gave).children[j]? = some k) : k.Idle := by
  rcases h.child_after hc hk with ⟨hlt, -⟩ | ⟨rfl, -⟩ | ⟨-, hi⟩
  · omega
  · omega
  · exact hi

/-- What a child gave and was asked for stays with the children before it, and the replaced child is
settled with what it gave. -/
theorem At.staged_after (h : At f values i n) (hc : n.children[i]? = some child)
    (ha : child'.Alike child) (hs : Settled f n i child child' gave) :
    (after n i child' gave).Staged f where
  short := by
    have hi := (List.getElem?_eq_some_iff.mp hc).1
    have hgave : gave.toList.length ≤ 1 := by cases gave <;> simp
    rw [length_after h.reached, after, List.length_set]
    omega
  gave j k c hk hj := by
    rcases h.child_after hc hk with ⟨hlt, hn⟩ | ⟨rfl, rfl⟩ | ⟨hgt, -⟩
    · rw [h.childResults_after hlt] at hj
      exact h.active.staged.gave j k c hn hj
    · rw [h.childResults_after_self] at hj
      rcases hs with ⟨-, hnone⟩ | ⟨vals, -, hactive, hall⟩
      · obtain ⟨⟩ := hnone.symm.trans hj
      · exact ⟨hactive.not_idle, hall c hj⟩
    · have hlt := (List.getElem?_eq_some_iff.mp hj).1
      rw [length_after h.reached] at hlt
      have hgave : gave.toList.length ≤ 1 := by cases gave <;> simp
      omega
  asked j k _ hk hidle := by
    rcases h.child_after hc hk with ⟨hlt, hn⟩ | ⟨rfl, rfl⟩ | ⟨-, hi⟩
    · rw [h.valuesFor_after (Nat.le_of_lt hlt) rfl]
      exact h.active.staged.asked j k (Nat.le_of_lt (Nat.lt_of_lt_of_le hlt h.reached)) hn hidle
    · rcases hs with ⟨hi, -⟩ | ⟨vals, hv, -⟩
      · exact absurd hi hidle
      · exact ⟨vals, (h.valuesFor_after (Nat.le_refl _) ha.plan_eq).trans hv⟩
    · exact absurd hi hidle
  idle j k hlt hk := by
    rw [length_after h.reached] at hlt
    exact h.idle_after hc j k (by omega) hk

/-- **A turn keeps the node active**, whatever the child has become. -/
theorem At.active_after (h : At f values i n) (hc : n.children[i]? = some child)
    (ha : child'.Alike child) (hs : Settled f n i child child' gave) :
    Active f values (after n i child' gave) := by
  obtain ⟨past, batch, ahead, ho⟩ := h.active.exists_open
  refine .node ⟨ho.source, ho.cursor, ho.small, ho.valid, ho.apart, ho.rows⟩ (h.staged_after hc ha hs) ?_
  intro j k vals hk hidle hv
  rcases h.child_after hc hk with ⟨hlt, hn⟩ | ⟨rfl, rfl⟩ | ⟨-, hi⟩
  · rw [h.valuesFor_after (Nat.le_of_lt hlt) rfl] at hv
    exact h.active.child hn hidle hv
  · rcases hs with ⟨hi, -⟩ | ⟨vals', hv', hactive, -⟩
    · exact absurd hi hidle
    · rw [h.valuesFor_after (Nat.le_refl _) ha.plan_eq, hv'] at hv
      cases hv
      exact hactive
  · exact absurd hi hidle

/-- A fetched child is settled with what it gave. -/
theorem settled_of_fetched {vals : List Value} (hv : valuesFor n i child = .ok vals)
    (h : Fetched f (some vals) o child') :
    match o with
    | .batch c => Settled f n i child child' (some c)
    | .pending => Settled f n i child child' none
    | _ => True := by
  cases o with
  | batch c => exact .inr ⟨vals, hv, h.1, fun d hd => Option.some.inj hd ▸ h.2⟩
  | pending => exact .inr ⟨vals, hv, h, by rintro _ ⟨⟩⟩
  | exhausted => trivial
  | unfinished => trivial

/-! ## Walks and fetches keep nodes active -/

include hkeeps in
/-- After a batch the walk stands at the next child. -/
theorem At.batch (h : At f values i n) (hc : n.children[i]? = some child)
    (ht : f.turn fetch n i child = (.ok (.batch c), child')) :
    At f values (i + 1) (after n i child' (some c)) ∧
      (after n i child' (some c)).Alike n := by
  obtain ⟨hcc, vals, hv, hf⟩ := h.turn hkeeps hc ht
  have hal := alike_after hc hcc (some c)
  have hactive := h.active_after hc hcc (settled_of_fetched hv hf)
  have hlen := length_after h.reached child' (some c)
  exact ⟨⟨h.formed.of_alike hal.symm, hactive, Nat.le_of_eq hlen.symm, by rw [hlen]; simp,
    fun l k hl => h.idle_after hc l k (Nat.lt_of_succ_lt hl)⟩, hal⟩

include hkeeps in
/-- After a child is exhausted the walk stands at the child before it. -/
theorem At.back (h : At f values (i + 1) n) (hc : n.children[i + 1]? = some child)
    (ht : f.turn fetch n (i + 1) child = (.ok .exhausted, child')) :
    At f values i (after n (i + 1) child'.reset none) ∧
      (after n (i + 1) child'.reset none).Alike n := by
  have hcc := (alike_reset child').trans (h.turn hkeeps hc ht).1
  have hal := alike_after hc hcc none
  have hactive := h.active_after hc hcc (.inl ⟨idle_reset child', rfl⟩)
  have hlen := length_after h.reached child'.reset none
  have hself : (after n (i + 1) child'.reset none).children[i + 1]? = some child'.reset :=
    getElem?_setChild_self hc child'.reset
  refine ⟨⟨h.formed.of_alike hal.symm, hactive, ?_, ?_, fun l k hl hk => ?_⟩, hal⟩
  · rw [hlen]; simp
  · rw [hlen]; simp
  · rcases Nat.lt_or_eq_of_le (Nat.succ_le_of_lt hl) with hlt | heq
    · exact h.idle_after hc l k hlt hk
    · rw [← heq] at hk
      cases hself.symm.trans hk
      exact idle_reset child'

/-- What holds of a node at the end of a walk. -/
def Walked (f : Fetcher) (values : Option (List Value)) (n : Node) (r : Except Failure WalkEnd)
    (n' : Node) : Prop :=
  ∀ e, r = .ok e → n'.Alike n ∧
    match e with
    | .joined => Active f values n' ∧ n'.progress.childResults.length = n'.children.length
    | .pending => Active f values n'
    | .exhausted => Active f values n' ∧ n'.progress.cursor = n.progress.cursor
    | .unfinished => True

theorem At.length_eq (h : At f values i n) (hnone : n.children[i]? = none) :
    n.progress.childResults.length = n.children.length := by
  have := List.getElem?_eq_none_iff.mp hnone
  have := h.reached
  have := h.active.staged.short
  omega

include hkeeps in
theorem walked_walk (steps : Nat) (h : At f values i n) :
    Walked f values n (f.walk fetch steps i n).1 (f.walk fetch steps i n).2 := by
  refine walk_rule (I := fun _ j m => At f values j m ∧ m.Alike n ∧
    m.progress.cursor = n.progress.cursor) ?_ ?_ ?_ ?_ ?_ ?_ ?_ ?_ ⟨h, .refl n, rfl⟩
  · rintro j m ⟨-, ha, -⟩ e he
    cases he
    exact ⟨ha, trivial⟩
  · rintro s j m ⟨hat, ha, -⟩ hnone e he
    cases he
    exact ⟨ha, hat.active, hat.length_eq hnone⟩
  · rintro s j m k e' k' - - - e he
    obtain ⟨⟩ := he
  · rintro s j m k k' ⟨hat, ha, -⟩ hk ht e he
    cases he
    exact ⟨(alike_setChild hk (hat.turn hkeeps hk ht).1).trans ha, trivial⟩
  · rintro s j m k k' ⟨hat, ha, -⟩ hk ht e he
    cases he
    obtain ⟨hkk, vals, hv, hf⟩ := hat.turn hkeeps hk ht
    exact ⟨(alike_after hk hkk none).trans ha, hat.active_after hk hkk (settled_of_fetched hv hf)⟩
  · rintro s j m k k' c ⟨hat, ha, hcur⟩ hk ht
    obtain ⟨hat', ha'⟩ := hat.batch hkeeps hk ht
    exact ⟨hat', ha'.trans ha, hcur⟩
  · rintro s m k k' ⟨hat, ha, hcur⟩ hk ht e he
    cases he
    have hal := (alike_reset k').trans (hat.turn hkeeps hk ht).1
    have hactive := hat.active_after hk hal (.inl ⟨idle_reset k', rfl⟩)
    exact ⟨(alike_after hk hal none).trans ha, hactive, hcur⟩
  · rintro s j m k k' ⟨hat, ha, hcur⟩ hk ht
    obtain ⟨hat', ha'⟩ := hat.back hkeeps hk ht
    exact ⟨hat', ha'.trans ha, hcur⟩

theorem childResults_of_isLeaf (ha : Active f values n) (hl : n.isLeaf = true) :
    n.progress.childResults = [] := by
  have := ha.staged.short
  rw [isLeaf, List.isEmpty_iff] at hl
  rw [hl] at this
  exact List.length_eq_zero_iff.mp (Nat.le_zero.mp this)

theorem fetched_fetchLeaf {b : BatchCursor} (ha : Active f values n) (hl : n.isLeaf = true)
    (hb : n.progress.cursor = some b) (h : f.fetchLeaf n b = (.ok o, n')) :
    n'.Alike n ∧ Fetched f values o n' := by
  have hk := childResults_of_isLeaf ha hl
  obtain ⟨past, batch, ahead, ho⟩ := ha.exists_open
  rcases fetchLeaf_cases h with ⟨-, rfl, rfl⟩ | ⟨-, k, hp, hend⟩
  · exact ⟨.refl _, .inr ha⟩
  · obtain ⟨ho', hal, hc, hk'⟩ := open_of_pull ho hb hp
    have hnil : n'.children = [] := hc.trans (List.isEmpty_iff.mp hl)
    have ha' : Active f values n' := active_of_open ho' (hk'.trans hk) (by simp [hnil])
    rcases hend with ⟨-, rfl⟩ | ⟨c, rfl, hcomb⟩
    · exact ⟨hal, ha'⟩
    · refine ⟨hal, ha', ?_, ?_⟩
      · rw [hk', hk, hnil]
        rfl
      · rw [hk', hk]
        exact hcomb

theorem fetched_advance {b : BatchCursor} (ha : Active f values n)
    (hb : n.progress.cursor = some b) (h : advance n b = (.ok o, n')) :
    n'.Alike n ∧ Fetched f values o n' := by
  obtain ⟨past, batch, ahead, ho⟩ := ha.exists_open
  rcases advance_cases h with ⟨-, rfl, rfl⟩ | ⟨-, rfl, k, m, hp, rfl⟩
  · exact ⟨alike_reset n, .inl (idle_reset n)⟩
  · obtain ⟨ho', hal, -, -⟩ := open_of_pull ho hb hp
    exact ⟨(alike_resetChildren m).trans hal, active_of_open
      ⟨ho'.source, ho'.cursor, ho'.small, ho'.valid, ho'.apart, ho'.rows⟩ rfl (idle_resetChildren m)⟩

/-- **The rule of active nodes**: a leaf is fetched from as it is, and any other node is active where its walk
ends, with results for every child where these are combined. -/
theorem active_fetchWithin_rule {height : Nat} {motive : Outcome → Node → Prop}
    (hkeeps : Keeps f (f.fetchWithin height)) (hf : n.Formed) (ha : Active f values n)
    (h : f.fetchWithin (height + 1) n = (.ok o, n'))
    (leaf : ∀ b, n.isLeaf = true → n.progress.cursor = some b → f.fetchLeaf n b = (.ok o, n') → motive o n')
    (joined : ∀ c m, n.isLeaf = false → f.walk (f.fetchWithin height) f.steps (start n) n = (.ok .joined, m) →
      m.Alike n → Active f values m → Gave f m c → motive (.batch c) m)
    (pending : ∀ m, n.isLeaf = false → f.walk (f.fetchWithin height) f.steps (start n) n = (.ok .pending, m) →
      m.Alike n → Active f values m → motive .pending m)
    (exhausted : ∀ b m, n.isLeaf = false →
      f.walk (f.fetchWithin height) f.steps (start n) n = (.ok .exhausted, m) → m.Alike n → Active f values m →
      m.progress.cursor = n.progress.cursor → m.progress.cursor = some b → advance m b = (.ok o, n') → motive o n')
    (unfinished : ∀ m, n.isLeaf = false →
      f.walk (f.fetchWithin height) f.steps (start n) n = (.ok .unfinished, m) → m.Alike n →
      motive .unfinished m) :
    motive o n' := by
  obtain ⟨past, batch, ahead, ho⟩ := ha.exists_open
  obtain ⟨b, hb, -⟩ := ho.cursor
  cases hl : n.isLeaf with
  | true => exact leaf b hl hb (fetchWithin_leaf hl hb f height ▸ h)
  | false =>
    obtain ⟨e, m, hwalk, hend⟩ := fetchWithin_cases hl hb h
    have hw := walked_walk hkeeps f.steps (at_start hf ha hl)
    rw [hwalk] at hw
    obtain ⟨hal, hw⟩ := hw e rfl
    cases e with
    | joined =>
      obtain ⟨rfl, c, rfl, hc⟩ := hend
      exact joined c n' hl hwalk hal hw.1 ⟨hw.2, hc⟩
    | pending =>
      obtain ⟨rfl, rfl⟩ := hend
      exact pending n' hl hwalk hal hw
    | exhausted => exact exhausted b m hl hwalk hal hw.1 hw.2 (hw.2.trans hb) hend
    | unfinished =>
      obtain ⟨rfl, rfl⟩ := hend
      exact unfinished n' hl hwalk hal

/-- **Fetching keeps active nodes active**, and a node that gave a batch holds it. -/
theorem keeps_fetchWithin (f : Fetcher) (height : Nat) : Keeps f (f.fetchWithin height) := by
  induction height with
  | zero =>
    intro n values _ _ o n' h
    cases h
    exact ⟨.refl n, trivial⟩
  | succ height ih =>
    intro n values hf ha o n' h
    refine active_fetchWithin_rule (motive := fun o m => m.Alike n ∧ Fetched f values o m) ih hf ha h ?_ ?_ ?_ ?_ ?_
    · exact fun b hl hb h => fetched_fetchLeaf ha hl hb h
    · exact fun c m _ _ hal hm hgave => ⟨hal, hm, hgave⟩
    · exact fun m _ _ hal hm => ⟨hal, hm⟩
    · intro b m _ _ hal hm _ hb hadvance
      obtain ⟨hal', hf'⟩ := fetched_advance hm hb hadvance
      exact ⟨hal'.trans hal, hf'⟩
    · exact fun m _ _ hal => ⟨hal, trivial⟩

theorem keeps_fetch (f : Fetcher) : Keeps f f.fetch := fun n =>
  keeps_fetchWithin f n.height n

end PathQuery.Fetcher
