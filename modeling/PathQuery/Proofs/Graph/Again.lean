import PathQuery.Proofs.Graph.Afresh

/-!
# Proofs/Graph/Again — preparing a graph that gave everything

A root with children resets itself when it is exhausted, so the graph can be prepared again and runs as it
did before.  A root without children keeps the cursor that gave its last document: preparing it again is
refused until it is reset (`prepareRoot_of_exhausted`).
-/

namespace PathQuery

namespace Fetcher

open Node

variable {f : Fetcher} {n n' : Node}

/-! ## What is left of a cursor -/

/-- Opening an idle node gives it a cursor, or leaves it idle. -/
theorem idle_openCursor (f : Fetcher) (values : Option (List Value)) (h : n.Idle) :
    (f.openCursor values n).1 = .ok () ∧ (f.openCursor values n).2.progress.cursor ≠ none ∨
      (f.openCursor values n).2.Idle := by
  have hidle : ∀ results : Collection, Idle { n with progress := ⟨results, none, []⟩ } := fun _ =>
    idle_iff.mpr ⟨rfl, rfl, fun _ => h.child⟩
  exact openCursor_rule (fun _ => .inr h) (fun _ _ _ => .inr h)
    (fun b _ _ _ => .inl ⟨rfl, Option.some_ne_none b⟩) (fun _ _ _ results _ _ _ _ => .inr (hidle results))
    fun _ _ b' _ _ _ _ _ => .inl ⟨rfl, Option.some_ne_none b'⟩

theorem cursor_pull {m : Node} {b : BatchCursor} {e : Except Failure Nat} (h : pull n b = (e, m)) :
    m.progress.cursor ≠ none := by
  cases h
  exact Option.some_ne_none _

theorem cursor_or_idle_advance (n : Node) (b : BatchCursor) :
    (advance n b).2.progress.cursor ≠ none ∨ (advance n b).2.Idle :=
  advance_rule (fun _ => .inr (idle_reset n)) (fun _ _ _ hp => .inl (cursor_pull hp))
    fun _ m _ hp => .inl (cursor_pull hp : m.progress.cursor ≠ none)

/-- A fetch leaves a node its cursor, or leaves it idle. -/
theorem cursor_or_idle_fetch (f : Fetcher) (hcur : n.progress.cursor ≠ none) :
    (f.fetch n).2.progress.cursor ≠ none ∨ (f.fetch n).2.Idle := by
  obtain ⟨b, hb⟩ := Option.ne_none_iff_exists'.mp hcur
  rw [fetch, height_eq]
  cases hl : n.isLeaf with
  | true =>
    rw [fetchWithin_leaf hl hb]
    exact fetchLeaf_rule (fun _ => .inl hcur) (fun _ _ _ hp => .inl (cursor_pull hp))
      (fun _ _ _ hp _ => .inl (cursor_pull hp)) fun _ _ _ hp => .inl (cursor_pull hp)
  | false =>
    have hwalked : ∀ {e m}, f.walk (f.fetchWithin (heightOf n.children)) f.steps (start n) n = (e, m) →
        m.progress.cursor ≠ none := fun hw => by
      have := cursor_walk f (f.fetchWithin (heightOf n.children)) n f.steps (start n)
      rw [hw] at this
      exact this.trans_ne hcur
    exact fetchWithin_rule hl hb (fun _ _ hw => .inl (hwalked hw)) (fun _ hw => .inl (hwalked hw))
      (fun _ hw => .inl (hwalked hw)) (fun m _ => cursor_or_idle_advance m b) fun _ hw => .inl (hwalked hw)

/-- An exhausted leaf is left as it was, with its cursor. -/
theorem eq_of_exhausted_leaf (hl : n.children = []) (h : f.fetch n = (.ok .exhausted, n')) :
    n' = n ∧ n.progress.cursor ≠ none := by
  have hcur := cursor_ne_none_of_fetch h
  obtain ⟨b, hb⟩ := Option.ne_none_iff_exists'.mp hcur
  rw [fetch, height_eq, fetchWithin_leaf (List.isEmpty_iff.mpr hl) hb] at h
  rcases fetchLeaf_cases h with ⟨-, -, he⟩ | ⟨-, -, -, ⟨-, ⟨⟩⟩ | ⟨-, ⟨⟩, -⟩⟩
  exact ⟨he, hcur⟩

/-- An exhausted node with children is idle. -/
theorem idle_of_exhausted (hl : n.children ≠ []) (h : f.fetch n = (.ok .exhausted, n')) : n'.Idle := by
  have hcur := cursor_ne_none_of_fetch h
  obtain ⟨b, hb⟩ := Option.ne_none_iff_exists'.mp hcur
  rw [fetch, height_eq] at h
  obtain ⟨e, m, -, hend⟩ := fetchWithin_cases (List.isEmpty_eq_false_iff.mpr hl) hb h
  cases e with
  | joined =>
    obtain ⟨-, c, ⟨⟩, -⟩ := hend
  | pending =>
    obtain ⟨-, ⟨⟩⟩ := hend
  | unfinished =>
    obtain ⟨-, ⟨⟩⟩ := hend
  | exhausted =>
    rcases advance_cases hend with ⟨-, -, rfl⟩ | ⟨-, ⟨⟩, -⟩
    exact idle_reset m

end Fetcher

namespace Graph

open Node

variable {g g₁ g₂ : Graph}

/-! ## Preparing again -/

/-- After any calls the root is idle, or it holds a cursor, since the graph as it was built can be prepared. -/
theorem Called.idle_or_prepared (hr : Called g g₁) (hb : g.Built) :
    g₁.root.Idle ∨ g₁.root.progress.cursor ≠ none ∧ g.prepareRoot.1 = .ok () := by
  induction hr with
  | refl => exact .inl hb.idle
  | @prepareRoot g₁ hr ih =>
    rcases ih with hidle | ⟨hcur, hprepared⟩
    · have hsame := (hr.readsAs_of_idle hb hidle).prepareRoot.1
      exact (Fetcher.idle_openCursor g₁.fetcher none hidle).elim
        (fun hopened => .inr ⟨hopened.2, hsame.symm.trans hopened.1⟩) .inl
    · refine .inr ⟨?_, hprepared⟩
      rwa [prepareRoot_of_ne_none hcur]
  | @fetch g₁ _ ih =>
    rcases ih with hidle | ⟨hcur, hprepared⟩
    · left
      rwa [fetch_of_eq_none hidle.cursor]
    · exact (Fetcher.cursor_or_idle_fetch g₁.fetcher hcur).elim (fun h => .inr ⟨h, hprepared⟩) .inl
  | reset _ _ => exact .inl (idle_reset _)

/-- A fetch that gave everything was made at a root with a cursor, which stays the root of the same tree. -/
theorem Called.prepared_of_exhausted (hr : Called g g₁) (hb : g.Built) (hf : g₁.fetch = (.ok .exhausted, g₂)) :
    g.prepareRoot.1 = .ok () ∧ g₁.fetcher.fetch g₁.root = (.ok .exhausted, g₂.root) := by
  obtain ⟨-, hfetch⟩ := fetch_eq_iff.mp hf
  have hcur := Fetcher.cursor_ne_none_of_fetch hfetch
  exact ⟨(hr.idle_or_prepared hb).elim (fun hidle => absurd hidle.cursor hcur) And.right, hfetch⟩

/-- A root without children that gave everything cannot be prepared as it is. -/
theorem prepareRoot_of_exhausted_leaf (hl : g₁.root.children = []) (hf : g₁.fetch = (.ok .exhausted, g₂)) :
    g₂ = g₁ ∧ g₂.prepareRoot = (.error (.state (.alreadyPrepared g₂.root.name)), g₂) := by
  obtain ⟨hfetcher, hfetch⟩ := fetch_eq_iff.mp hf
  obtain ⟨hroot, hcur⟩ := Fetcher.eq_of_exhausted_leaf hl hfetch
  have hsame : g₂ = g₁ := congrArg₂ mk hfetcher hroot
  exact ⟨hsame, prepareRoot_of_ne_none (hsame ▸ hcur)⟩

/-- **A graph that gave everything** can be prepared again as it is exactly if its root has children, and then
it runs as it did.  A root without children keeps its cursor, and runs as it did once it is reset. -/
theorem prepareRoot_of_exhausted (hb : g.Built) (hr : g.Called g₁) (hf : g₁.fetch = (.ok .exhausted, g₂)) :
    (g₂.prepareRoot.1 = .ok () ↔ g.root.children ≠ []) ∧
    (g.root.children ≠ [] → g₂.Replays g) ∧
    (g.root.children = [] → g₂ = g₁ ∧
      g₂.prepareRoot = (.error (.state (.alreadyPrepared g₂.root.name)), g₂) ∧
      g₂.reset.prepareRoot.1 = .ok () ∧ g₂.reset.Replays g) := by
  obtain ⟨hprepared, hfetch⟩ := hr.prepared_of_exhausted hb hf
  have hcalled : g.Called g₂ := by
    have := hr.fetch
    rwa [hf] at this
  have hlength := (hr.preserved (hb.idle.sized _)).1.alike.length_eq
  have hchildren : g₁.root.children = [] ↔ g.root.children = [] := by
    rw [← List.length_eq_zero_iff, ← List.length_eq_zero_iff, hlength]
  by_cases hl : g.root.children = []
  · obtain ⟨hsame, hrefused⟩ := prepareRoot_of_exhausted_leaf (hchildren.mpr hl) hf
    have hreplays := (hcalled.reset.readsAs_of_idle hb (idle_reset g₂.root)).replays
    refine ⟨iff_of_false ?_ (not_not.mpr hl), fun hne => absurd hl hne, fun _ =>
      ⟨hsame, hrefused, hreplays.prepared.trans hprepared, hreplays⟩⟩
    rw [hrefused]
    rintro ⟨⟩
  · have hidle := Fetcher.idle_of_exhausted (mt hchildren.mp hl) hfetch
    have hreplays := (hcalled.readsAs_of_idle hb hidle).replays
    exact ⟨iff_of_true (hreplays.prepared.trans hprepared) hl, fun _ => hreplays, fun h => absurd h hl⟩

namespace Shop

/-- Whether a fetch says that everything was given after one that did not. -/
def givesOnce (g : Graph) : Bool := !isExhausted g.fetch.1 && isExhausted g.fetch.2.fetch.1

theorem eq_exhausted_of_givesOnce (h : givesOnce g = true) :
    g.fetch.2.fetch = (.ok .exhausted, g.fetch.2.fetch.2) :=
  Prod.ext (eq_exhausted_of_isExhausted (Bool.and_eq_true_iff.mp h).2) rfl

end Shop

/-- The orders with their customers and products are given again. -/
theorem prepareRoot_of_exhausted_shop : ∃ g g₁ g₂ : Graph, g.Built ∧ g.Called g₁ ∧
    g₁.fetch = (.ok .exhausted, g₂) ∧ g.root.children ≠ [] ∧ g₂.prepareRoot.1 = .ok () ∧ g₂.Replays g := by
  obtain ⟨root, after, hq, htest⟩ := Shop.exists_root (Shop.catalog Shop.store) "Orders" Shop.predicates []
    (fun root => !root.isLeaf &&
      Shop.givesOnce (ofRoot (Shop.registry Shop.store) .projection 10 root).prepareRoot.2) (by decide +kernel)
  obtain ⟨hleaf, hgives⟩ := Bool.and_eq_true_iff.mp htest
  have hb : Built (ofRoot (Shop.registry Shop.store) .projection 10 root) := .ofRoot (.ofConfig _ _) hq _ _ _
  have hroot : root.children ≠ [] := List.isEmpty_eq_false_iff.mp (Bool.not_eq_true' _ ▸ hleaf)
  have hf := Shop.eq_exhausted_of_givesOnce hgives
  obtain ⟨hiff, hagain, -⟩ := prepareRoot_of_exhausted hb (.fetch (.prepareRoot .refl)) hf
  exact ⟨_, _, _, hb, .fetch (.prepareRoot .refl), hf, hroot, hiff.mpr hroot, hagain hroot⟩

/-- **A root without children is not prepared again**: the customers of the small store, once they were all
given. -/
theorem exists_not_prepared_again : ∃ g g₁ g₂ : Graph, g.Built ∧ g.Called g₁ ∧
    g.prepareRoot.1 = .ok () ∧ g₁.fetch = (.ok .exhausted, g₂) ∧
    g₂.prepareRoot = (.error (.state (.alreadyPrepared "Customers")), g₂) := by
  obtain ⟨root, after, hq, htest⟩ := Shop.exists_root (Shop.catalog Shop.store) "Customers" [] []
    (fun root =>
      let g := (ofRoot (Shop.registry Shop.store) .projection 10 root).prepareRoot.2
      Shop.givesOnce g && g.fetch.2.root.isLeaf && g.fetch.2.root.name == "Customers") (by decide +kernel)
  simp only [Bool.and_eq_true, beq_iff_eq] at htest
  obtain ⟨⟨hgives, hleaf⟩, hname⟩ := htest
  have hb : Built (ofRoot (Shop.registry Shop.store) .projection 10 root) := .ofRoot (.ofConfig _ _) hq _ _ _
  generalize ofRoot (Shop.registry Shop.store) .projection 10 root = g at hb hgives hleaf hname
  have hf := Shop.eq_exhausted_of_givesOnce hgives
  have hr : g.Called g.prepareRoot.2.fetch.2 := .fetch (.prepareRoot .refl)
  obtain ⟨hsame, hrefused⟩ := prepareRoot_of_exhausted_leaf (List.isEmpty_iff.mp hleaf) hf
  refine ⟨g, _, _, hb, hr, (hr.prepared_of_exhausted hb hf).1, hf, ?_⟩
  rw [hrefused, hsame, hname]

end Graph

end PathQuery
