/-
Making and dropping page tables in a system of several.

* `LedgerInv.shrink` — the ledger stays right when tables are taken out of it whose owner
  gives them back, provided that nobody borrows them or that they are stale then;
* `LedgerInv.drop`, `LedgerInv.new` — the calls.
-/
import PageTableMultiarch.Table64.SystemStep

namespace PageTableMultiarch

open GenericPTE Radix MemEvent

variable {B : Build} {M : PagingMetaData} {PTE σ : Type} {H : PagingHandler 64 σ}
  {inUse : σ → Set PhysAddr} {w w' : World PTE σ}
  {T T' : Members B M PTE H} {n : ℕ} {L : Ledger} {t : ℕ} {x : Member B M PTE H}

/-- The ledger without some tables. -/
def Ledger.without (L : Ledger) (S : Set PhysAddr) : Ledger := { L with subs := L.subs \ S }

theorem Ledger.Lends.without {S : Set PhysAddr} {i : Fin ENTRY_COUNT} {u : PhysAddr}
    (h : L.Lends x i u) (hu : u ∉ S) : (L.without S).Lends x i u :=
  ⟨⟨h.sub, hu⟩, h.index, h.owner⟩

/-- What one table may point to, a table with more lenders may. -/
theorem Ledger.Lends.mono {x' : Member B M PTE H} {i : Fin ENTRY_COUNT} {u : PhysAddr}
    (h : L.Lends x i u) (hsub : x.lenders ⊆ x'.lenders) : L.Lends x' i u :=
  ⟨h.sub, h.index, h.owner.imp_right fun ⟨z, hz, ho⟩ => ⟨z, hsub hz, ho⟩⟩

/-- The tables of one system are tables of another, apart from borrowed entries. -/
def SameTables (T T' : Members B M PTE H) : Prop :=
  ∀ ⦃t x'⦄, T' t = some x' → ∃ x, T t = some x ∧
    x'.table.rootPaddr = x.table.rootPaddr ∧ x'.lenders = x.lenders ∧ x'.lent = x.lent

theorem SameTables.healthy (h : SameTables T T') {x' : Member B M PTE H}
    (hsub : x.lenders ⊆ x'.lenders) (hh : Healthy T' x') : Healthy T x := by
  intro z hz
  obtain ⟨y', hy'⟩ := Option.isSome_iff_exists.mp (hh z (hsub hz))
  obtain ⟨y, hy, -⟩ := h hy'
  rw [hy]
  rfl

variable [GenericPTE 64 PTE]

/-- Tables are taken out of the ledger. -/
theorem LedgerInv.shrink (I : LedgerInv inUse w T n L) {S : Set PhysAddr} (hS : S ⊆ L.subs)
    (hsame : SameTables T T') (hev : Evolves w w') (hsafe : Safe w'.trace)
    (hinUse : live w'.trace ⊆ inUse w'.os)
    (hmem : ∀ s ∈ nodes child w.mem L.subs (M.LEVELS - 2), w'.mem s = w.mem s)
    (hsubs : nodes child w.mem L.subs (M.LEVELS - 2) \ nodes child w.mem S (M.LEVELS - 2) ⊆
      live w'.trace)
    (hroot : ∀ {t x'}, T' t = some x' → x'.table.rootPaddr ∈ live w'.trace)
    -- an entry that is not borrowed is as it was
    (howned : ∀ {t x' i u}, T' t = some x' → x'.table.borrowedEntries i = false →
      child (w'.mem x'.table.rootPaddr i) = some u → u ∉ S ∧ ∃ x, T t = some x ∧
        x.table.borrowedEntries i = false ∧ child (w.mem x.table.rootPaddr i) = some u)
    (howner : ∀ {u t}, u ∈ L.subs → u ∉ S → L.owner u = some t → ∃ x', T' t = some x' ∧
      x'.table.borrowedEntries (L.index u) = false ∧
      child (w'.mem x'.table.rootPaddr (L.index u)) = some u)
    -- a borrowed entry is one of the table itself or of a lender
    (hborrowed : ∀ {t x' i u}, T' t = some x' → x'.table.borrowedEntries i = true →
      child (w'.mem x'.table.rootPaddr i) = some u → ∃ z y, T z = some y ∧
        y.lenders ⊆ x'.lenders ∧ child (w.mem y.table.rootPaddr i) = some u ∧
        (y.table.borrowedEntries i = true ∨ z ∈ x'.lenders))
    -- what is taken out is stale for those who borrowed it, and a lender of theirs is gone
    (hgone : ∀ {u}, u ∈ S → Stale M w' u ∧ ∀ {t x' i}, T' t = some x' → L.Lends x' i u →
      child (w'.mem x'.table.rootPaddr i) = some u → ¬Healthy T' x') :
    LedgerInv inUse w' T' n (L.without S) := by
  have hnodes : nodes child w'.mem L.subs (M.LEVELS - 2) =
      nodes child w.mem L.subs (M.LEVELS - 2) :=
    nodes_of_agree hmem
  have hforest : Forest child w'.mem L.subs (M.LEVELS - 2) := I.forest.of_agree hmem
  have hnodesS : nodes child w'.mem S (M.LEVELS - 2) = nodes child w.mem S (M.LEVELS - 2) :=
    nodes_of_agree fun s hs => hmem s (nodes_mono hS le_rfl hs)
  have hleft : nodes child w'.mem (L.subs \ S) (M.LEVELS - 2) =
      nodes child w.mem L.subs (M.LEVELS - 2) \ nodes child w.mem S (M.LEVELS - 2) := by
    rw [hforest.nodes_sdiff hS, hnodes, hnodesS]
  -- a borrowed entry of a table was lent or stale before
  have hlends : ∀ {t x' i u}, T' t = some x' → x'.table.borrowedEntries i = true →
      child (w'.mem x'.table.rootPaddr i) = some u →
      (L.Lends x' i u ∨ Stale M w u) ∧ (Healthy T' x' → L.Lends x' i u) := by
    intro t x' i u hx' hb hu
    obtain ⟨z, y, hy, hsub, hchild, hyz⟩ := hborrowed hx' hb hu
    cases hb' : y.table.borrowedEntries i with
    | true =>
      refine ⟨(I.stale hy hb' hchild).imp_left fun h => h.mono hsub, fun hh => ?_⟩
      exact (I.borrowed hy (hsame.healthy hsub hh) hb' hchild).mono hsub
    | false =>
      obtain ⟨husub, hindex, ho⟩ := I.owned hy hb' hchild
      have : L.Lends x' i u :=
        ⟨husub, hindex, Or.inr ⟨z, hyz.resolve_left (by simp [hb']), ho⟩⟩
      exact ⟨Or.inl this, fun _ => this⟩
  -- what is lent stays in the ledger, unless it is stale now
  have hkept : ∀ {t x' i u}, T' t = some x' → child (w'.mem x'.table.rootPaddr i) = some u →
      L.Lends x' i u → (L.without S).Lends x' i u ∨ ¬Healthy T' x' ∧ Stale M w' u := by
    intro t x' i u hx' hchild h
    by_cases hu : u ∈ S
    · obtain ⟨hstale, hsick⟩ := hgone hu
      exact Or.inr ⟨hsick hx' h hchild, hstale⟩
    · exact Or.inl (h.without hu)
  exact
    { safe := hsafe
      inUse := hinUse
      forest := hforest.subset Set.sdiff_subset le_rfl
      subs_live := by
        rw [Ledger.without, hleft]
        exact hsubs
      root_live := hroot
      root_sub := by
        intro t x' hx'
        obtain ⟨x, hx, hr, -⟩ := hsame hx'
        rw [Ledger.without, hleft, hr]
        exact fun hc => I.root_sub hx hc.1
      root_inj := by
        intro t t' x' y' hx' hy' heq
        obtain ⟨x, hx, hr, -⟩ := hsame hx'
        obtain ⟨y, hy, hr', -⟩ := hsame hy'
        exact I.root_inj hx hy (by rw [← hr, ← hr', heq])
      owned := by
        intro t x' i u hx' hb hu
        obtain ⟨hnot, x, hx, hb, hu⟩ := howned hx' hb hu
        obtain ⟨hsub, hindex, ho⟩ := I.owned hx hb hu
        exact ⟨⟨hsub, hnot⟩, hindex, ho⟩
      owner := fun hu ho => howner hu.1 hu.2 ho
      borrowed := by
        intro t x' i u hx' hh hb hu
        obtain h | h := hkept hx' hu ((hlends hx' hb hu).2 hh)
        · exact h
        · exact absurd hh h.1
      stale := by
        intro t x' i u hx' hb hu
        obtain h | h := (hlends hx' hb hu).1
        · exact (hkept hx' hu h).imp_right fun h => h.2
        · exact Or.inr (h.evolves hev)
      lent := by
        intro t z x' y' hx' hz hy'
        obtain ⟨x, hx, -, hlenders, -⟩ := hsame hx'
        obtain ⟨y, hy, -, -, hlent⟩ := hsame hy'
        rw [hlent]
        exact I.lent hx (hlenders ▸ hz) hy
      lt_next := by
        intro t x' hx'
        obtain ⟨x, hx, -, hlenders, -⟩ := hsame hx'
        rw [hlenders]
        exact I.lt_next hx }

/-- Exactness, when what was taken out has been freed. -/
theorem LedgerExact.shrink (E : LedgerExact w T L) (F : Forest child w.mem L.subs (M.LEVELS - 2))
    {S : Set PhysAddr} (hS : S ⊆ L.subs)
    (hmem : ∀ s ∈ nodes child w.mem L.subs (M.LEVELS - 2), w'.mem s = w.mem s)
    (hlive : ∀ {p}, p ∈ MemEvent.live w'.trace →
      p ∈ MemEvent.live w.trace ∧ p ∉ nodes child w.mem S (M.LEVELS - 2))
    (hroot : ∀ {t x}, T t = some x → x.table.rootPaddr ∈ MemEvent.live w'.trace →
      ∃ t' x', T' t' = some x' ∧ x.table.rootPaddr = x'.table.rootPaddr) :
    LedgerExact w' T' (L.without S) := by
  refine ⟨fun hp => ?_, fun hu => E.owned hu.1⟩
  obtain ⟨hp', hnot⟩ := hlive hp
  obtain ⟨t, x, hx, rfl⟩ | hnode := E.live hp'
  · obtain ⟨t', x', hx', hr⟩ := hroot hx hp
    exact Or.inl ⟨t', x', hx', hr⟩
  · refine Or.inr ?_
    have hforest : Forest child w'.mem L.subs (M.LEVELS - 2) := F.of_agree hmem
    rw [Ledger.without, hforest.nodes_sdiff hS, nodes_of_agree hmem,
      nodes_of_agree fun s hs => hmem s (nodes_mono hS le_rfl hs)]
    exact ⟨hnode, hnot⟩

/-! ### Dropping a table -/

/-- The tables of the ledger that a page table owns. -/
def Ledger.ownedBy (L : Ledger) (t : ℕ) : Set PhysAddr := {u ∈ L.subs | L.owner u = some t}

/-- What a table owns is its root and the trees of the ledger that it owns. -/
theorem LedgerInv.owned_eq (I : LedgerInv inUse w T n L) (hx : T t = some x) :
    OwnsTrees x.table w.mem ∧ x.table.owned w.mem =
      {x.table.rootPaddr} ∪ nodes child w.mem (L.ownedBy t) (M.LEVELS - 2) := by
  refine ⟨⟨fun hb hu => ?_, fun {i j} hbi hbj hij => ?_, fun hb => ?_⟩, ?_⟩
  · have hsub := (I.owned hx hb hu).1
    exact I.forest.subset (Set.singleton_subset_iff.mpr hsub) le_rfl
  · rw [Set.disjoint_left]
    rintro s ⟨u, hu, r, rfl, π, hπ, hs⟩ ⟨v, hv, r', rfl, π', hπ', hs'⟩
    obtain ⟨husub, hi, -⟩ := I.owned hx hbi hu
    obtain ⟨hvsub, hj, -⟩ := I.owned hx hbj hv
    obtain ⟨rfl, -⟩ := I.forest husub hvsub hπ hπ' hs hs'
    exact hij (hi.symm.trans hj)
  · rintro ⟨u, hu, hs⟩
    have hsub := (I.owned hx hb hu).1
    exact I.root_sub hx (nodes_mono (Set.singleton_subset_iff.mpr hsub) le_rfl hs)
  · rw [PageTable64.owned]
    congr 1
    ext s
    constructor
    · rintro ⟨i, hb, u, hu, r, hr, hs⟩
      obtain ⟨hsub, -, ho⟩ := I.owned hx hb hu
      exact ⟨r, hr ▸ ⟨hsub, ho⟩, hs⟩
    · rintro ⟨u, ⟨hsub, ho⟩, hs⟩
      obtain ⟨y, hy, hb, hchild⟩ := I.owner hsub ho
      obtain rfl : x = y := Option.some_inj.mp (hx.symm.trans hy)
      exact ⟨L.index u, hb, u, hchild, u, rfl, hs⟩

omit [GenericPTE 64 PTE] in
/-- The tables that are left when one is gone. -/
theorem Members.of_gone {t' : ℕ} {x' : Member B M PTE H}
    (h : Function.update T t none t' = some x') : t' ≠ t ∧ T t' = some x' := by
  by_cases ht : t' = t
  · rw [ht, Function.update_self] at h
    exact absurd h (by simp)
  · rw [Function.update_of_ne ht] at h
    exact ⟨ht, h⟩

/-- Dropping a table takes out of the ledger what it owns. -/
theorem LedgerInv.drop (I : LedgerInv inUse w T n L) (hH : FreshFrames M H inUse)
    (hx : T t = some x) : ∃ w', x.table.drop w = (.ok (), w') ∧
      Frees H (x.table.owned w.mem) (x.table.owned w.mem) w w' ∧
      LedgerInv inUse w' (Function.update T t none) n (L.without (L.ownedBy t)) ∧
      (LedgerExact w T L →
        LedgerExact w' (Function.update T t none) (L.without (L.ownedBy t))) := by
  obtain ⟨hown, howned⟩ := I.owned_eq hx
  obtain ⟨w', heq, h⟩ := drop_spec x.table hown
  refine ⟨w', heq, h, ?_⟩
  rw [howned] at h
  set N := nodes child w.mem (L.ownedBy t) (M.LEVELS - 2) with hN
  have hS : L.ownedBy t ⊆ L.subs := fun u hu => hu.1
  have hNsub : N ⊆ nodes child w.mem L.subs (M.LEVELS - 2) := nodes_mono hS le_rfl
  have hNlive : {x.table.rootPaddr} ∪ N ⊆ live w.trace := by
    rintro s (rfl | hs)
    · exact I.root_live hx
    · exact I.subs_live (hNsub hs)
  obtain ⟨hsafe, hlive⟩ := h.safe I.safe (by rwa [Set.union_self])
  obtain ⟨tr, htr, -⟩ := h.events
  have hmem : ∀ s ∈ nodes child w.mem L.subs (M.LEVELS - 2), w'.mem s = w.mem s := fun s _ => by
    rw [h.mem]
  have hroot : ∀ {t' x'}, t' ≠ t → T t' = some x' → x'.table.rootPaddr ∈ live w'.trace := by
    intro t' x' ht hx'
    rw [hlive]
    refine ⟨I.root_live hx', ?_⟩
    rintro (hc | hc)
    · exact ht (I.root_inj hx' hx hc)
    · exact I.root_sub hx' (hNsub hc)
  refine ⟨I.shrink hS (fun t' x' hx' => ⟨x', (Members.of_gone hx').2, rfl, rfl, rfl⟩)
    (.of_mem_eq tr h.mem htr) hsafe ?_ hmem ?_
    (fun hx' => hroot (Members.of_gone hx').1 (Members.of_gone hx').2)
    ?_ ?_ ?_ ?_, fun E => E.shrink I.forest hS hmem (fun {p} hp => ?_) fun {t' x'} hx' hr => ?_⟩
  · rw [hlive]
    exact (Set.sdiff_subset_sdiff_left I.inUse).trans (h.os hH)
  · rw [hlive]
    rintro s ⟨hs, hnot⟩
    refine ⟨I.subs_live hs, ?_⟩
    rintro (hc | hc)
    · exact I.root_sub hx (hc ▸ hs)
    · exact hnot hc
  · intro t' x' i u hx' hb hu
    obtain ⟨ht, hx'⟩ := Members.of_gone hx'
    rw [h.mem] at hu
    refine ⟨fun hc => ?_, x', hx', hb, hu⟩
    have ho := (I.owned hx' hb hu).2.2
    rw [hc.2, Option.some_inj] at ho
    exact ht ho.symm
  · intro u t' hsub hnot ho
    have ht : t' ≠ t := fun hc => hnot ⟨hsub, hc ▸ ho⟩
    rw [h.mem, Function.update_of_ne ht]
    exact I.owner hsub ho
  · intro t' x' i u hx' hb hu
    rw [h.mem] at hu
    exact ⟨t', x', (Members.of_gone hx').2, fun _ hz => hz, hu, Or.inl hb⟩
  · intro u hu
    refine ⟨fun _ p hp => ?_, fun {t' x' i} hx' hlends _ hh => ?_⟩
    · rw [h.mem] at hp
      have hpN : p ∈ N := nodes_mono (Set.singleton_subset_iff.mpr hu) le_rfl hp
      refine ⟨fun hc => ?_, ?_⟩
      · rw [hlive] at hc
        exact hc.2 (Or.inr hpN)
      · rw [htr]
        exact List.mem_append_right tr (alloc_mem_of_live (hNlive (Or.inr hpN)))
    · obtain ho | ⟨z, hz, ho⟩ := hlends.owner
      · rw [hu.2] at ho
        exact absurd ho (by simp)
      · obtain rfl : t = z := Option.some_inj.mp (hu.2.symm.trans ho)
        have := hh t hz
        rw [Function.update_self] at this
        exact absurd this (by simp)
  · rw [hlive] at hp
    exact ⟨hp.1, fun hc => hp.2 (Or.inr hc)⟩
  · by_cases ht : t' = t
    · subst ht
      obtain rfl : x' = x := Option.some_inj.mp (hx'.symm.trans hx)
      rw [hlive] at hr
      exact absurd (Or.inl rfl) hr.2
    · exact ⟨t', x', by rw [Function.update_of_ne ht]; exact hx', rfl⟩

/-! ### Making a table -/

/-- A new table is entered without any tables below it. -/
theorem LedgerInv.new [LawfulPTE M PTE] (I : LedgerInv inUse w T n L)
    (hH : FreshFrames M H inUse) :
    (∃ e w', PageTable64.tryNew B M PTE H w = (.err e, w') ∧ LedgerInv inUse w' T n L ∧
      (LedgerExact w T L → LedgerExact w' T L)) ∨
    ∃ table w', PageTable64.tryNew B M PTE H w = (.ok table, w') ∧
      LedgerInv inUse w' (Function.update T n (some ⟨table, false, []⟩)) (n + 1) L ∧
      (LedgerExact w T L →
        LedgerExact w' (Function.update T n (some ⟨table, false, []⟩)) L) := by
  rw [tryNew_apply]
  obtain ⟨frame, os, ha⟩ : ∃ frame os, H.allocFrame w.os = (frame, os) := ⟨_, _, rfl⟩
  rw [ha]
  cases frame with
  | none =>
    have h := I.of_walks { w with os := os } (.of_mem_eq [] rfl rfl) I.safe rfl
      (I.inUse.trans (hH.alloc_none ha)) (fun _ _ _ _ => rfl) fun _ _ => rfl
    exact Or.inl ⟨.noMemory, _, rfl, h.1, h.2⟩
  | some p =>
    refine Or.inr ⟨⟨p, fun _ => false⟩, _, rfl, ?_⟩
    set w' : World PTE σ := ⟨Function.update w.mem p fun _ => empty, os,
      .access p :: .alloc p :: w.trace, w.flusher⟩ with hw'
    set T' : Members B M PTE H :=
      Function.update T n (some ⟨⟨p, fun _ => false⟩, false, []⟩) with hT'
    have hfresh : p ∉ live w.trace := fun hc => hH.fresh ha (I.inUse hc)
    have hp : p ∉ nodes child w.mem L.subs (M.LEVELS - 2) := fun hc => hfresh (I.subs_live hc)
    have hmem : ∀ s, s ≠ p → w'.mem s = w.mem s := fun s hs => Function.update_of_ne hs _ w.mem
    have hzero : ∀ i, child (w'.mem p i) = none := by
      intro i
      rw [hw']
      simp only [Function.update_self]
      exact child_empty M
    have hnode : ∀ s ∈ nodes child w.mem L.subs (M.LEVELS - 2), w'.mem s = w.mem s := fun s hs =>
      hmem s fun hc => hp (hc ▸ hs)
    have hlive : live w'.trace = insert p (live w.trace) := rfl
    have hev : Evolves w w' := ⟨[.access p, .alloc p], rfl, fun s hs => Or.inr (by
      have : s = p := by
        by_contra hc
        exact hs (hmem s hc)
      simp [this])⟩
    have hnow : ∀ {t x'}, T' t = some x' → t = n ∧ x' = ⟨⟨p, fun _ => false⟩, false, []⟩ ∨
        t ≠ n ∧ T t = some x' := by
      intro t x' hx'
      by_cases ht : t = n
      · rw [hT', ht, Function.update_self, Option.some_inj] at hx'
        exact Or.inl ⟨ht, hx'.symm⟩
      · rw [hT', Function.update_of_ne ht] at hx'
        exact Or.inr ⟨ht, hx'⟩
    have hroot : ∀ {t x}, T t = some x → x.table.rootPaddr ≠ p := fun hx hc =>
      hfresh (hc ▸ I.root_live hx)
    -- the lenders are older tables
    have hold : ∀ {t x z}, T t = some x → z ∈ x.lenders → T' z = T z := fun hx hz =>
      Function.update_of_ne ((I.lt_next hx).2 _ hz).ne _ T
    have hthen : ∀ {t x}, T t = some x → T' t = some x := fun {t x} hx => by
      rw [hT', Function.update_of_ne (I.lt_next hx).1.ne, hx]
    refine ⟨?_, fun E => ⟨fun hq => ?_, E.owned⟩⟩
    · exact
        { safe := ⟨Or.inl rfl, hfresh, I.safe⟩
          inUse := (Set.insert_subset_insert I.inUse).trans (hH.alloc ha)
          forest := I.forest.of_agree hnode
          subs_live := by
            rw [nodes_of_agree hnode, hlive]
            exact I.subs_live.trans (Set.subset_insert _ _)
          root_live := by
            intro t x' hx'
            obtain ⟨rfl, rfl⟩ | ⟨-, hx⟩ := hnow hx'
            · exact Or.inl rfl
            · exact Or.inr (I.root_live hx)
          root_sub := by
            intro t x' hx'
            rw [nodes_of_agree hnode]
            obtain ⟨rfl, rfl⟩ | ⟨-, hx⟩ := hnow hx'
            · exact hp
            · exact I.root_sub hx
          root_inj := by
            intro t t' x' y' hx' hy' heq
            obtain ⟨rfl, rfl⟩ | ⟨-, hx⟩ := hnow hx'
            · obtain ⟨rfl, -⟩ | ⟨-, hy⟩ := hnow hy'
              · rfl
              · exact absurd heq.symm (hroot hy)
            · obtain ⟨-, rfl⟩ | ⟨-, hy⟩ := hnow hy'
              · exact absurd heq (hroot hx)
              · exact I.root_inj hx hy heq
          owned := by
            intro t x' i u hx' hb hu
            obtain ⟨rfl, rfl⟩ | ⟨-, hx⟩ := hnow hx'
            · rw [hzero] at hu
              exact absurd hu (by simp)
            · rw [hmem _ (hroot hx)] at hu
              exact I.owned hx hb hu
          owner := by
            intro u t hu ho
            obtain ⟨x, hx, hb, hchild⟩ := I.owner hu ho
            exact ⟨x, hthen hx, hb, by rwa [hmem _ (hroot hx)]⟩
          borrowed := by
            intro t x' i u hx' hh hb hu
            obtain ⟨rfl, rfl⟩ | ⟨-, hx⟩ := hnow hx'
            · exact absurd hb (by simp)
            · rw [hmem _ (hroot hx)] at hu
              exact I.borrowed hx (fun z hz => hold hx hz ▸ hh z hz) hb hu
          stale := by
            intro t x' i u hx' hb hu
            obtain ⟨rfl, rfl⟩ | ⟨-, hx⟩ := hnow hx'
            · exact absurd hb (by simp)
            · rw [hmem _ (hroot hx)] at hu
              exact (I.stale hx hb hu).imp_right fun h => h.evolves hev
          lent := by
            intro t z x' y hx' hz hy
            obtain ⟨rfl, rfl⟩ | ⟨-, hx⟩ := hnow hx'
            · exact absurd hz (by simp)
            · exact I.lent hx hz (hold hx hz ▸ hy)
          lt_next := by
            intro t x' hx'
            obtain ⟨rfl, rfl⟩ | ⟨-, hx⟩ := hnow hx'
            · exact ⟨Nat.lt_succ_self _, fun z hz => absurd hz (by simp)⟩
            · exact ⟨(I.lt_next hx).1.trans (Nat.lt_succ_self n),
                fun z hz => ((I.lt_next hx).2 z hz).trans (Nat.lt_succ_self n)⟩ }
    · obtain rfl | hq := hq
      · exact Or.inl ⟨n, _, Function.update_self _ _ _, rfl⟩
      · obtain ⟨t, x, hx, rfl⟩ | hnodes := E.live hq
        · exact Or.inl ⟨t, x, hthen hx, rfl⟩
        · rw [nodes_of_agree hnode]
          exact Or.inr hnodes

end PageTableMultiarch
