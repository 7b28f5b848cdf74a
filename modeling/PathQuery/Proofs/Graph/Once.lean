import PathQuery.Proofs.Graph.Ahead
import PathQuery.Proofs.Graph.Inherit

/-!
# Proofs/Graph/Once — a projection gives each choice of rows at most once

No step brings back a choice of rows that is no longer ahead, and a row that is given was ahead (`Backs`).  Once
given it is not ahead any more (`Sound.onceAhead_drain`), so no two rows of a drain agree on the primary keys
of all nodes.
-/

namespace PathQuery

open Projection (AtMostOne)

namespace Fetcher

open Node

variable {f : Fetcher} {fetch : Node → Except Failure Outcome × Node} {values : Option (List Value)}
  {n n' : Node} {i j : Nat} {o : Outcome} {c : Collection} {p : Pattern}

/-- What a tree needs for its rows to be told apart. -/
structure Plain (f : Fetcher) (n : Node) (p : Pattern) : Prop where
  formed : n.Formed
  projection : f.combination = .projection
  dotless : n.Dotless f.registry
  single : n.Single f.registry p

theorem Plain.child (h : Plain f n p) {child : Node} (hc : child ∈ n.children) :
    Plain f child (p.under child.edge.name) :=
  ⟨h.formed.child hc, h.projection, h.dotless.child hc, h.single.child hc⟩

theorem Plain.of_alike (h : Plain f n p) (ha : n.Alike n') : Plain f n' p :=
  ⟨h.formed.of_alike ha, h.projection, h.dotless.of_alike ha, h.single.of_alike ha⟩

variable {child child' : Node}

/-! ## No step brings anything back -/

/-- What is ahead after a step was ahead before it, and so was what it gave. -/
def Back (p : Pattern) (n : Node) (o : Outcome) (n' : Node) : Prop :=
  match o with
  | .batch c => (Ahead p n' → Ahead p n) ∧ ((∃ row ∈ c.rows, n.Fits p row.get?) → Ahead p n)
  | .pending => Ahead p n' → Ahead p n
  | _ => True

/-- A way of fetching that brings nothing back. -/
def Backs (f : Fetcher) (fetch : Node → Except Failure Outcome × Node) : Prop :=
  ∀ n values p, Plain f n p → (n.isRoot = true → n.columns = []) → Active f values n →
    ∀ o n', fetch n = (.ok o, n') → Back p n o n'

/-- A turn of a child brings nothing back, if the child was not idle. -/
theorem At.back_turn (hbacks : Backs f fetch) (hp : Plain f n p) (h : At f values i n)
    (hc : n.children[i]? = some child) (hi : ¬ child.Idle)
    (ht : f.turn fetch n i child = (.ok o, child')) : Back (p.under child.edge.name) child o child' := by
  have hmem := List.mem_of_getElem? hc
  obtain ⟨edge, hj⟩ := h.formed.joint hmem
  obtain ⟨-, vals, -, hactive⟩ := h.active.exists_vals hc hi
  rcases turn_cases ht with ⟨-, rfl, rfl⟩ | ⟨-, hfetch⟩ | ⟨hs, -⟩
  · trivial
  · exact hbacks child _ _ (hp.child hmem) hj.columns_eq hactive o child' hfetch
  · obtain ⟨_, _, _, ho⟩ := hactive.exists_open
    exact absurd (joinedStatus_eq_unready.mp hs) ho.cursor_ne

section Turns

variable (hkeeps : Keeps f fetch) (hbacks : Backs f fetch)

include hkeeps hbacks

/-- What is ahead of a child after a turn that goes on. -/
theorem At.due_of_ahead (hp : Plain f n p) (h : At f values i n) (hc : n.children[i]? = some child)
    (ht : f.turn fetch n i child = (.ok o, child'))
    (ho : o = .pending ∨ ∃ c, o = .batch c)
    (hd : child'.Idle ∨ Ahead (p.under child'.edge.name) child') : Due p n i := by
  obtain ⟨hal, vals, -, hfetched⟩ := h.turn hkeeps hc ht
  intro k hk
  cases hc.symm.trans hk
  by_cases hi : child.Idle
  · exact .inl hi
  · have hback := h.back_turn hbacks hp hc hi ht
    rw [hal.edge_eq] at hd
    refine .inr ?_
    rcases ho with rfl | ⟨c, rfl⟩
    · exact hback (hd.resolve_left (Active.not_idle hfetched))
    · exact hback.1 (hd.resolve_left hfetched.1.not_idle)

theorem At.aheadAt_batch (hp : Plain f n p) (h : At f values i n) (hc : n.children[i]? = some child)
    (ht : f.turn fetch n i child = (.ok (.batch c), child'))
    (ha : AheadAt p (after n i child' (some c)) (i + 1)) : AheadAt p n i := by
  refine ha.imp id fun ⟨now, j, hj, kept, due⟩ => ⟨now, ?_⟩
  rcases Nat.lt_trichotomy j i with hlt | rfl | hgt
  · exact ⟨j, Nat.le_of_lt hlt, fun l hl => (h.kept_after (hl.trans hlt)).mp (kept l hl),
      (due_after (Nat.ne_of_lt hlt)).mp due⟩
  · exact ⟨j, Nat.le_refl j, fun l hl => (h.kept_after hl).mp (kept l hl),
      h.due_of_ahead hkeeps hbacks hp hc ht (.inr ⟨c, rfl⟩) ((due_after_self hc).mp due)⟩
  · -- the child has given a row that fits, so it was ahead of it
    refine ⟨i, Nat.le_refl i, fun l hl => (h.kept_after hl).mp (kept l (hl.trans hgt)), ?_⟩
    obtain ⟨d, hd, x, hx, hfits⟩ := (h.kept_after_self hc).mp (kept i hgt)
    cases hd
    obtain ⟨hal, -⟩ := h.turn hkeeps hc ht
    rw [hal.edge_eq] at hfits
    intro k hk
    cases hc.symm.trans hk
    by_cases hi : child.Idle
    · exact .inl hi
    · exact .inr ((h.back_turn hbacks hp hc hi ht).2 ⟨x, hx, hfits.of_alike hal⟩)

theorem At.aheadAt_pending (hp : Plain f n p) (h : At f values i n) (hc : n.children[i]? = some child)
    (ht : f.turn fetch n i child = (.ok .pending, child'))
    (ha : AheadAt p (after n i child' none) i) : AheadAt p n i := by
  refine ha.imp id fun ⟨now, j, hj, kept, due⟩ => ⟨now, j, hj, fun l hl =>
    (h.kept_after (Nat.lt_of_lt_of_le hl hj)).mp (kept l hl), ?_⟩
  rcases Nat.lt_or_eq_of_le hj with hlt | rfl
  · exact (due_after (Nat.ne_of_lt hlt)).mp due
  · exact h.due_of_ahead hkeeps hbacks hp hc ht (.inl rfl) ((due_after_self hc).mp due)

end Turns

theorem At.aheadAt_back (h : At f values (i + 1) n)
    (ha : AheadAt p (after n (i + 1) child' none) i) : AheadAt p n (i + 1) := by
  refine ha.imp id fun ⟨now, j, hj, kept, due⟩ => ⟨now, j, Nat.le_succ_of_le hj, fun l hl => ?_, ?_⟩
  · exact (h.kept_after (Nat.lt_succ_of_lt (Nat.lt_of_lt_of_le hl hj))).mp (kept l hl)
  · exact (due_after (Nat.ne_of_lt (Nat.lt_succ_of_le hj))).mp due

/-! ## Walks and fetches -/

/-- What a walk leaves ahead was ahead before it, and so is what its end gives. -/
def WalkedBack (p : Pattern) (n : Node) (r : Except Failure WalkEnd) (n' : Node) : Prop :=
  match r with
  | .ok .joined => ∃ i, n'.children[i]? = none ∧ (AheadAt p n' i → Ahead p n)
  | .ok .pending => Ahead p n' → Ahead p n
  | _ => True

theorem walkedBack_walk (hkeeps : Keeps f fetch) (hbacks : Backs f fetch) (hp : Plain f n p)
    (hl : n.isLeaf = false) (steps : Nat) (h : At f values (start n) n) :
    WalkedBack p n (f.walk fetch steps (start n) n).1 (f.walk fetch steps (start n) n).2 := by
  refine walk_rule (I := fun _ j m => At f values j m ∧ m.Alike n ∧ (AheadAt p m j → Ahead p n))
    ?_ ?_ ?_ ?_ ?_ ?_ ?_ ?_ ⟨h, .refl n, (ahead_iff hl).mpr⟩
  · exact fun _ _ _ => trivial
  · exact fun s j m ⟨_, _, ha⟩ hnone => ⟨j, hnone, ha⟩
  · exact fun _ _ _ _ _ _ _ _ _ => trivial
  · exact fun _ _ _ _ _ _ _ _ => trivial
  · rintro s j m k k' ⟨hat, hal, ha⟩ hk ht
    intro hahead
    rw [ahead_iff (isLeaf_after hk), hat.start_after hk] at hahead
    exact ha (hat.aheadAt_pending hkeeps hbacks (hp.of_alike hal.symm) hk ht hahead)
  · rintro s j m k k' d ⟨hat, hal, ha⟩ hk ht
    obtain ⟨hat', hal'⟩ := hat.batch hkeeps hk ht
    exact ⟨hat', hal'.trans hal, fun hahead =>
      ha (hat.aheadAt_batch hkeeps hbacks (hp.of_alike hal.symm) hk ht hahead)⟩
  · exact fun _ _ _ _ _ _ _ => trivial
  · rintro s j m k k' ⟨hat, hal, ha⟩ hk ht
    obtain ⟨hat', hal'⟩ := hat.back hkeeps hk ht
    exact ⟨hat', hal'.trans hal, fun hahead => ha (hat.aheadAt_back hahead)⟩

/-- Where each child holds results, what is given is ahead of a walk that stands behind the last. -/
theorem aheadAt_of_fits (hp : Plain f n p) (ha : Active f values n) (hu : n.Uncut c)
    (hnone : n.children[i]? = none) {row : Entity} (hrow : row ∈ c.rows) (hfits : n.Fits p row.get?) :
    AheadAt p n i := by
  obtain ⟨-, hcol⟩ := ha.columned hp.formed hp.projection hp.dotless hu
  obtain ⟨m, hm, -, hcol⟩ := hcol row hrow
  obtain ⟨hown, hchildren⟩ := hp.single.exists_of_fits hu.length_eq hcol hfits
  have hlen := List.getElem?_eq_none_iff.mp hnone
  refine .inr ⟨⟨m, hm, hown⟩, n.children.length, hlen, fun l hl => ?_, fun k hk => ?_⟩
  · have hc := List.getElem?_eq_getElem hl
    have hd := List.getElem?_eq_getElem (hu.length_eq.symm ▸ hl : l < n.progress.childResults.length)
    obtain ⟨x, hx, -, hxfits⟩ := hchildren l _ _ hc hd
    exact ⟨_, _, hc, hd, x, hx, hxfits⟩
  · exact absurd (List.getElem?_eq_some_iff.mp hk).1 (Nat.lt_irrefl _)

/-- A row that a node gives and that fits has its host in the batch. -/
theorem now_of_fits (hp : Plain f n p) (ha : Active f values n) (hu : n.Uncut c) {row : Entity}
    (hrow : row ∈ c.rows) (hfits : n.Fits p row.get?) : Now p n := by
  obtain ⟨-, hcol⟩ := ha.columned hp.formed hp.projection hp.dotless hu
  obtain ⟨m, hm, -, hcol⟩ := hcol row hrow
  exact ⟨m, hm, (hp.single.exists_of_fits hu.length_eq hcol hfits).1⟩

theorem back_fetchLeaf {b : BatchCursor} (hp : Plain f n p) (hroot : n.isRoot = true → n.columns = [])
    (ha : Active f values n) (hl : n.isLeaf = true) (hb : n.progress.cursor = some b)
    (h : f.fetchLeaf n b = (.ok o, n')) : Back p n o n' := by
  obtain ⟨past, batch, ahead, ho⟩ := ha.exists_open
  obtain ⟨hal, hfetched⟩ := fetched_fetchLeaf ha hl hb h
  rcases fetchLeaf_cases h with ⟨-, rfl, rfl⟩ | ⟨-, k, hpull, hend⟩
  · trivial
  · obtain ⟨hlater, hnow⟩ := yet_of_pull (p := p) ho hb hpull
    have hahead : Ahead p n' → Ahead p n := fun h =>
      .later (hlater ((ahead_leaf (List.isEmpty_iff.mp (hal.isLeaf_eq.trans hl))).mp h))
    rcases hend with ⟨-, rfl⟩ | ⟨c, rfl, -⟩
    · exact hahead
    · refine ⟨hahead, fun ⟨row, hrow, hfits⟩ => .later (hnow ?_)⟩
      have hu := hfetched.2.uncut hp.projection fun hr =>
        hal.columns_eq.trans (hroot (hal.isRoot_eq ▸ hr))
      exact now_of_fits (hp.of_alike hal.symm) hfetched.1 hu hrow (hfits.of_alike hal.symm)

theorem back_advance {b : BatchCursor} (ha : Active f values n) (hb : n.progress.cursor = some b)
    (h : advance n b = (.ok o, n')) : o = .exhausted ∨ o = .pending ∧ (Ahead p n' → Later p n) := by
  obtain ⟨past, batch, ahead, ho⟩ := ha.exists_open
  rcases advance_cases h with ⟨-, rfl, -⟩ | ⟨-, rfl, k, m, hpull, rfl⟩
  · exact .inl rfl
  · obtain ⟨hlater, hnow⟩ := yet_of_pull (p := p) ho hb hpull
    refine .inr ⟨rfl, fun h => ?_⟩
    cases h with
    | later h => exact hlater h
    | unopened now => exact hnow now
    | within now => exact hnow now

/-- What is combined behind a walk was ahead before it. -/
theorem back_of_joined {m : Node} (hp : Plain f n p) (hroot : n.isRoot = true → n.columns = [])
    (hl : n.isLeaf = false) (hal : m.Alike n) (hm : Active f values m) (hgave : Gave f m c)
    (hw : WalkedBack p n (.ok .joined) m) : Back p n (.batch c) m := by
  obtain ⟨i, hnone, hback⟩ := hw
  have hstart : start m ≤ i := by
    have hle : m.children.length ≤ i := List.getElem?_eq_none_iff.mp hnone
    rw [start]
    omega
  refine ⟨fun h => hback (((ahead_iff (hal.isLeaf_eq.trans hl)).mp h).mono hstart), ?_⟩
  rintro ⟨row, hrow, hfits⟩
  have hu := hgave.uncut hp.projection fun hr => hal.columns_eq.trans (hroot (hal.isRoot_eq ▸ hr))
  exact hback (aheadAt_of_fits (hp.of_alike hal.symm) hm hu hnone hrow (hfits.of_alike hal.symm))

/-- **Fetching brings nothing back.** -/
theorem backs_fetchWithin (f : Fetcher) (height : Nat) : Backs f (f.fetchWithin height) := by
  induction height with
  | zero =>
    intro n values p _ _ _ o n' h
    cases h
    trivial
  | succ height ih =>
    intro n values p hp hroot ha o n' h
    have hkeeps := keeps_fetchWithin f height
    have hwalked : ∀ {e m}, n.isLeaf = false →
        f.walk (f.fetchWithin height) f.steps (start n) n = (e, m) → WalkedBack p n e m := fun hl hwalk => by
      have := walkedBack_walk hkeeps ih hp hl f.steps (at_start hp.formed ha hl)
      rwa [hwalk] at this
    refine active_fetchWithin_rule (motive := Back p n) hkeeps hp.formed ha h ?_ ?_ ?_ ?_ ?_
    · exact fun b hl hb h => back_fetchLeaf hp hroot ha hl hb h
    · exact fun c m hl hwalk hal hm hgave => back_of_joined hp hroot hl hal hm hgave (hwalked hl hwalk)
    · exact fun m hl hwalk _ _ => hwalked hl hwalk
    · intro b m _ _ _ hm hcur hb hadvance
      have hlater : Later p m → Later p n := by
        rw [Later, Later, Node.yet, Node.yet, hcur]
        exact id
      rcases back_advance (p := p) hm hb hadvance with rfl | ⟨rfl, hadv⟩
      · trivial
      · exact fun h => .later (hlater (hadv h))
    · exact fun m _ _ _ => trivial

end Fetcher

/-! ## Drains -/

namespace Graph

open Node

variable {g g₁ : Graph} {p : Pattern} {o : Outcome}

/-- At most one of some rows fits, and one that does is ahead. -/
def OnceAhead (p : Pattern) (n : Node) (rows : List Entity) : Prop :=
  AtMostOne (fun row : Entity => n.Fits p row.get?) rows ∧ ((∃ row ∈ rows, n.Fits p row.get?) → Ahead p n)

/-- A fetch keeps what tells rows apart, and brings nothing back. -/
theorem Sound.back_fetch (hs : g.Sound) (hp : Fetcher.Plain g.fetcher g.root p) (hw : g.root.columns = [])
    (hf : g.fetch = (.ok o, g₁)) : Fetcher.Plain g₁.fetcher g₁.root p ∧ g₁.root.columns = [] ∧
      g₁.root.Alike g.root ∧ Fetcher.Back p g.root o g₁.root := by
  obtain ⟨hactive, hfet, hal, hroot, -, -⟩ := hs.fetch hf
  refine ⟨hfet ▸ hp.of_alike hal.symm, hal.columns_eq.trans hw, hal, ?_⟩
  exact Fetcher.backs_fetchWithin g.fetcher g.root.height _ _ p hp (fun _ => hw) hactive o _ hroot

/-- **In a drain at most one row fits**, and one that does was ahead. -/
theorem Sound.onceAhead_drain (hs : g.Sound) (hp : Fetcher.Plain g.fetcher g.root p)
    (hw : g.root.columns = []) : OnceAhead p g.root g.drain.rows := by
  have hfits : ∀ {g g₁ : Graph} {rows : List Entity}, g₁.root.Alike g.root →
      OnceAhead p g₁.root rows → AtMostOne (fun row : Entity => g.root.Fits p row.get?) rows ∧
        ((∃ row ∈ rows, g.root.Fits p row.get?) → Ahead p g₁.root) := by
    rintro g g₁ rows hal ⟨hone, hahead⟩
    refine ⟨hone.imp fun hne hboth => hne ⟨hboth.1.of_alike hal.symm, hboth.2.of_alike hal.symm⟩, ?_⟩
    exact fun ⟨row, hrow, hr⟩ => hahead ⟨row, hrow, hr.of_alike hal.symm⟩
  refine drain_rule (Q := fun g run => Fetcher.Plain g.fetcher g.root p → g.root.columns = [] →
    OnceAhead p g.root run.rows) ?_ ?_ ?_ ?_ hs hp hw
  · exact fun g f g₁ _ _ _ _ => ⟨.nil, fun ⟨_, h, _⟩ => nomatch h⟩
  · exact fun g g₁ _ _ _ _ => ⟨.nil, fun ⟨_, h, _⟩ => nomatch h⟩
  · intro g g₁ run hs hf ih hp hw
    obtain ⟨hp₁, hw₁, hal, hback⟩ := hs.back_fetch hp hw hf
    obtain ⟨hone, hahead⟩ := hfits hal (ih hp₁ hw₁)
    exact ⟨hone, fun h => hback (hahead h)⟩
  · intro g g₁ c run hs hf ih hp hw
    obtain ⟨hp₁, hw₁, hal, hback⟩ := hs.back_fetch hp hw hf
    obtain ⟨hone, hahead⟩ := hfits hal (ih hp₁ hw₁)
    obtain ⟨-, -, -, -, -, hactive, hgave⟩ := hs.fetch hf
    have hu := hgave.uncut hp₁.projection fun _ => hw₁
    have hnow := hactive.atMostOne_fits hp₁.formed hp₁.projection hp₁.dotless hp₁.single hu
    have hvalid := (hactive.flat hp₁.formed hp₁.projection hu).valid
    rw [rows_push hvalid]
    refine ⟨List.pairwise_append.mpr ⟨?_, hone, ?_⟩, ?_⟩
    · exact hnow.imp fun hne hboth => hne ⟨hboth.1.of_alike hal.symm, hboth.2.of_alike hal.symm⟩
    · -- a row that was given is not ahead any more
      intro a ha b hb hboth
      exact hactive.not_ahead hp₁.formed hp₁.projection hp₁.dotless hp₁.single hu ha
        (hboth.1.of_alike hal.symm) (hahead ⟨b, hb, hboth.2⟩)
    · rintro ⟨row, hrow, hr⟩
      rcases List.mem_append.mp hrow with hrow | hrow
      · exact hback.2 ⟨row, hrow, hr⟩
      · exact hback.1 (hahead ⟨row, hrow, hr⟩)

end Graph

/-! ## Primary keys of all nodes -/

namespace Node

variable {n : Node} {r : Registry}

/-- The columns of the primary keys of all nodes of a tree. -/
def keyColumns (n : Node) : List String :=
  n.located.filterMap fun (hops, m) => m.plan.request.entity.primaryKey.toOption.join.map (column hops)

theorem mem_keyColumns {m : Node} {hops : List String} {key : String} (hm : (hops, m) ∈ n.located)
    (hk : m.plan.request.entity.primaryKey = .ok (some key)) : column hops key ∈ n.keyColumns := by
  refine List.mem_filterMap.mpr ⟨_, hm, ?_⟩
  simp only [hk]
  rfl

/-- Each node has a primary key, and no two documents of its resource have the same one. -/
def Keyed (r : Registry) (n : Node) : Prop := ∀ m ∈ n.all, ∃ key,
  m.plan.request.entity.primaryKey = .ok (some key) ∧ DotFree key ∧
    ∀ docs, r.documentsFor m.plan.request = .ok docs → docs.Pairwise fun a b => a.key? key ≠ b.key? key

instance (r : Registry) (n : Node) : Decidable (n.Keyed r) :=
  decidable_of_iff (∀ m ∈ n.all, ∃ key ∈ m.plan.request.entity.primaryKey.toOption.join, DotFree key ∧
      ∀ docs ∈ (r.documentsFor m.plan.request).toOption, docs.Pairwise fun a b => a.key? key ≠ b.key? key) <|
    forall₂_congr fun m _ => exists_congr fun key => by
      cases m.plan.request.entity.primaryKey <;> cases r.documentsFor m.plan.request <;> simp [Except.toOption]

/-- What a row has for the primary key of each node. -/
def agreeing (n : Node) (row : Entity) : Pattern := fun hops view => ∀ m key, (hops, m) ∈ n.located →
  m.plan.request.entity.primaryKey = .ok (some key) → view key = row.get? (column hops key)

/-- The keys of a row that has them all tell the documents of every node apart. -/
theorem Keyed.single (h : n.Keyed r) {row : Entity} (hrow : ∀ name ∈ n.keyColumns, row.get? name ≠ none) :
    n.Single r (n.agreeing row) where
  isLocal hops v w hvw hp m key hm hk := by
    obtain ⟨key', hk', hdot, -⟩ := h m (mem_all_of_mem_located hm)
    cases hk.symm.trans hk'
    exact (hvw key hdot).symm.trans (hp m key hm hk)
  present hops hh hp := by
    obtain ⟨m, hm⟩ := mem_places_iff.mp hh
    obtain ⟨key, hk, -⟩ := h m (mem_all_of_mem_located hm)
    exact hrow _ (mem_keyColumns hm hk) (hp m key hm hk).symm
  single hops m hm docs hdocs := by
    obtain ⟨key, hk, -, hapart⟩ := h m (mem_all_of_mem_located hm)
    refine (hapart docs hdocs).imp fun {a b} hne ⟨ha, hb⟩ => ?_
    have hab := (ha m key hm hk).trans (hb m key hm hk).symm
    simp only [Entity.ofDocument, Fields.get?_mapValues] at hab
    have hinj : Function.Injective (Option.map FieldValue.plain) :=
      Option.map_injective fun v w h => FieldValue.plain.inj h
    exact hne (by rw [Document.key?, Document.key?, hinj hab])

end Node

namespace Graph

open Node

/-- **No two rows of a drain agree on the primary keys of all nodes**, whatever batches they come in. -/
theorem pairwise_not_agree {catalog after : Catalog} (hc : catalog.Reached) {resource : String}
    {predicates : List Filter.Predicate} {root : Node}
    (h : Node.ofQuery? catalog resource predicates [] = (.ok root, after)) {registry : Registry}
    (hd : root.Dotless registry) (hk : root.Keyed registry) {batchSize : Nat} {run : Run}
    (hrun : (ofRoot registry .projection batchSize root).run = .ok run) :
    run.rows.Pairwise fun a b =>
      ¬ ∀ name ∈ root.keyColumns, ∃ value, a.get? name = some value ∧ b.get? name = some value := by
  have hsound := (Built.ofRoot hc h registry .projection batchSize).sound
  rw [Graph.run] at hrun
  split at hrun
  · obtain ⟨⟩ := hrun
  · rename_i g hprepare
    cases hrun
    obtain ⟨-, hfet, hal, -, hactive⟩ := hsound.prepareRoot hprepare
    have hs : g.Sound := hsound.of_alike hfet hal (.inr hactive)
    refine List.pairwise_iff_forall_sublist.mpr fun {a b} hab hagree => ?_
    have hsingle : root.Single registry (root.agreeing a) := hk.single fun name hn => by
      obtain ⟨v, hv, -⟩ := hagree name hn
      rw [hv]
      exact Option.some_ne_none v
    have hplain : Fetcher.Plain g.fetcher g.root (root.agreeing a) :=
      hfet ▸ Fetcher.Plain.of_alike ⟨hsound.formed, rfl, hd, hsingle⟩ hal.symm
    have hcolumns : g.root.columns = [] := hal.columns_eq.trans (columns_of_ofQuery? h)
    have hone := (hs.onceAhead_drain hplain hcolumns).1.sublist hab
    refine List.rel_of_pairwise_cons hone (.head _) ⟨fun hops _ m key _ _ => rfl, ?_⟩
    intro hops _ m key hm hkey
    obtain ⟨v, ha, hb⟩ := hagree _ (mem_keyColumns hm hkey)
    exact hb.trans ha.symm

/-- The orders of the small store. -/
theorem pairwise_not_agree_shop : ∃ (root : Node) (after : Catalog) (run : Run),
    Node.ofQuery? (Shop.catalog Shop.store) "Orders" Shop.predicates [] = (.ok root, after) ∧
    (ofRoot (Shop.registry Shop.store) .projection 10 root).run = .ok run ∧ run.rows.length = 2 ∧
    run.rows.Pairwise fun a b =>
      ¬ ∀ name ∈ root.keyColumns, ∃ value, a.get? name = some value ∧ b.get? name = some value := by
  obtain ⟨root, after, run, hq, hrun, htest⟩ := Shop.exists_run
    (fun root run => run.rows.length == 2 && decide (root.Dotless (Shop.registry Shop.store)) &&
      decide (root.Keyed (Shop.registry Shop.store))) (by decide +kernel)
  obtain ⟨⟨hlen, hdot⟩, hkeyed⟩ := by simpa only [Bool.and_eq_true] using htest
  exact ⟨root, after, run, hq, hrun, eq_of_beq hlen, pairwise_not_agree (.ofConfig _ _) hq
    (of_decide_eq_true hdot) (of_decide_eq_true hkeyed) hrun⟩

end Graph

end PathQuery
