import FastParse.Routes.Contents

namespace FastParse

open Framework State

/-- Two runs look the same to the peer, but for where its buffers lie: `ρ` pairs the buffers
that it has taken. Heads are compared at the prefixes `own`. -/
structure Twin (env : Env) (pn : Fin npeers) (own : Nat → Prop) (s t : State)
    (cells cells' : Fin npeers × Size → List Ptr) (ρ : Ptr → Ptr → Prop) : Prop where
  one : OneToOne ρ
  classes : Agree ρ (classAt env.slab) (classAt env.slab)
  content : Agree ρ s.routing.content t.routing.content
  mine : ∀ p q, ρ p q → Mine env.slab pn s.routing cells p
  mine' : ∀ p q, ρ p q → Mine env.slab pn t.routing cells' q
  lines : ∀ z, List.Forall₂ ρ (cells (pn, z)) (cells' (pn, z))
  slots : ∀ w, Matched ρ null null (s.slotOf (pn, w)) (t.slotOf (pn, w))
  heads : ∀ w, own w → Matched ρ null null (s.headOf w) (t.headOf w)

namespace Twin

variable {env : Env} {pn : Fin npeers} {own : Nat → Prop} {s s' t t' : State}
  {cells cells' : Fin npeers × Size → List Ptr} {ρ : Ptr → Ptr → Prop}

theorem symm (h : Twin env pn own s t cells cells' ρ) :
    Twin env pn own t s cells' cells (Function.swap ρ) where
  one := h.one.flip
  classes := h.classes.flip
  content := h.content.flip
  mine := fun q p hpq => h.mine' p q hpq
  mine' := fun q p hpq => h.mine p q hpq
  lines := fun z => (h.lines z).flip
  slots := fun w => (h.slots w).flip
  heads := fun w hw => (h.heads w hw).flip

theorem ne_null (h : Twin env pn own s t cells cells' ρ) (p q : Ptr) (hpq : ρ p q) :
    p ≠ null ∧ q ≠ null :=
  ⟨(h.mine p q hpq).ne_null, (h.mine' p q hpq).ne_null⟩

/-- Whether a route wins the head depends on what the two buffers say only. -/
theorem wins_iff (h : Twin env pn own s t cells cells' ρ) {w : Nat} {r r' : Ptr} (hw : own w)
    (hr : Matched ρ null null r r') :
    (r ≠ null ∧ (s.headOf w = null ∨ s.routing.tiebreak r ≠ s.routing.tiebreak (s.headOf w))) ↔
      (r' ≠ null ∧
        (t.headOf w = null ∨ t.routing.tiebreak r' ≠ t.routing.tiebreak (t.headOf w))) := by
  have hhead := h.heads w hw
  have hroute : r ≠ null ↔ r' ≠ null := not_congr (hr.null_iff h.ne_null)
  have hnone := hhead.null_iff h.ne_null
  rw [← hroute, ← hnone]
  apply and_congr_right
  intro hne
  by_cases hh : s.headOf w = null
  · simp [hh]
  · have e := h.content _ _ (hr.partner hne)
    have e' := h.content _ _ (hhead.partner hh)
    simp only [Routing.tiebreak_eq, e, e']

/-- The old routes are partners, and go back to the same line or to none. -/
theorem lines_called (h : Twin env pn own s t cells cells' ρ) {a b : Nat}
    (hp : s.routing.slab.Placed env.slab) (hp' : t.routing.slab.Placed env.slab)
    (hold : Matched ρ null null (s.routing.adjRibIn (pn, a)) (t.routing.adjRibIn (pn, b)))
    (z : Size) :
    List.Forall₂ ρ (s.routing.swapCells pn a cells (pn, z))
      (t.routing.swapCells pn b cells' (pn, z)) := by
  have hnull := hold.null_iff h.ne_null
  rw [Routing.swapCells, Routing.swapCells]
  by_cases ho : s.routing.adjRibIn (pn, a) = null
  · rw [if_neg (not_not.mpr ho), if_neg (not_not.mpr (hnull.mp ho))]
    exact h.lines z
  · have hpair := hold.partner ho
    have huse : (s.routing.slab.heap (s.routing.adjRibIn (pn, a))).useCount =
        (t.routing.slab.heap (t.routing.adjRibIn (pn, b))).useCount :=
      congrArg Prod.fst (h.content _ _ hpair)
    rw [if_pos ho, if_pos fun e => ho (hnull.mpr e), Counted.releaseCells,
      Counted.releaseCells, huse, sizeClass_eq hp, sizeClass_eq hp', h.classes _ _ hpair]
    split_ifs
    · rw [Counted.onLine, Counted.onLine]
      generalize classAt env.slab (t.routing.adjRibIn (pn, b)) = y
      by_cases ez : z = y
      · subst ez
        rw [Function.update_self, Function.update_self]
        exact .cons hpair (h.lines z)
      · have hne : (pn, z) ≠ (pn, y) := fun e => ez (Prod.mk.inj e).2
        rw [Function.update_of_ne hne, Function.update_of_ne hne]
        exact h.lines z
    · exact h.lines z

theorem heads_called (h : Twin env pn own s t cells cells' ρ) {w : Nat} {r r' : Ptr} {a b : Nat}
    (hr : Matched ρ null null r r') (hs : s.CalledAt pn w r a s') (ht : t.CalledAt pn w r' b t')
    {v : Nat} (hv : own v) : Matched ρ null null (s'.headOf v) (t'.headOf v) := by
  rw [hs.heads, ht.heads]
  by_cases e : v = w
  · subst e
    have hwins := h.wins_iff hv hr
    by_cases hwin : r ≠ null ∧
        (s.headOf v = null ∨ s.routing.tiebreak r ≠ s.routing.tiebreak (s.headOf v))
    · rw [if_pos hwin, if_pos (hwins.mp hwin), Function.update_self, Function.update_self]
      exact hr
    · rw [if_neg hwin, if_neg fun hw => hwin (hwins.mpr hw)]
      exact h.heads v hv
  · have keep {f : Nat → Ptr} {x : Ptr} {P : Prop} [Decidable P] :
        (if P then Function.update f w x else f) v = f v := by
      split_ifs
      · exact Function.update_of_ne e x f
      · rfl
    rw [keep, keep]
    exact h.heads v hv

theorem called (h : Twin env pn own s t cells cells' ρ) {w : Nat} {r r' : Ptr} {a b : Nat}
    (hp : s.routing.slab.Placed env.slab) (hp' : t.routing.slab.Placed env.slab)
    (hr : Matched ρ null null r r') (hs : s.CalledAt pn w r a s')
    (ht : t.CalledAt pn w r' b t') :
    Twin env pn own s' t' (s.routing.swapCells pn a cells) (t.routing.swapCells pn b cells')
      ρ := by
  have hold := h.slots w
  rw [hs.slot, ht.slot] at hold
  refine ⟨h.one, h.classes, ?_, ?_, ?_, h.lines_called hp hp' hold, ?_,
    fun v hv => h.heads_called hr hs ht hv⟩
  · rw [hs.called.content, ht.called.content]
    exact agree_recount (agree_recount h.content h.one h.ne_null hold) h.one h.ne_null hr
  · exact fun p q hpq => (h.mine p q hpq).called hs.called (.inl rfl)
  · exact fun p q hpq => (h.mine' p q hpq).called ht.called (.inl rfl)
  · intro v
    rw [hs.slots, ht.slots]
    refine Matched.update (P := fun k : Fin npeers × Nat => k.1 = pn) ?_ hr (pn, v) rfl
    intro k hk
    obtain ⟨qn, v⟩ := k
    cases hk
    exact h.slots v

/-- One run makes a call of another peer, for a prefix that does not count if there is a
route. -/
theorem otherCalled (h : Twin env pn own s t cells cells' ρ) {rn : Fin npeers} (hrn : rn ≠ pn)
    {w : Nat} {r : Ptr} {a : Nat} (hr : ∀ q, ¬ ρ r q) (hown : r ≠ null → ¬ own w)
    (hs : s.CalledAt rn w r a s') :
    Twin env pn own s' t (s.routing.swapCells rn a cells) cells' ρ := by
  have hold : ∀ q, ¬ ρ (s.routing.adjRibIn (rn, a)) q :=
    fun q hq => hrn ((h.mine _ q hq).slot rn a rfl)
  refine ⟨h.one, h.classes, ?_, ?_, h.mine', ?_, ?_, ?_⟩
  · rw [hs.called.content]
    exact agree_recount_left (agree_recount_left h.content hold) hr
  · exact fun p q hpq => (h.mine p q hpq).called hs.called (.inr fun e => hr q (e ▸ hpq))
  · intro z
    have hline : s.routing.swapCells rn a cells (pn, z) = cells (pn, z) := by
      rw [Routing.swapCells, Counted.releaseCells]
      split_ifs
      · exact Function.update_of_ne (fun e => hrn (Prod.mk.inj e).1.symm) _ _
      · rfl
      · rfl
    rw [hline]
    exact h.lines z
  · intro v
    rw [hs.slots, Function.update_of_ne fun e => hrn (Prod.mk.inj e).1.symm]
    exact h.slots v
  · intro v hv
    rw [hs.heads]
    split_ifs with hwin
    · have hne : v ≠ w := fun e => hown hwin.1 (e ▸ hv)
      rw [Function.update_of_ne hne]
      exact h.heads v hv
    · exact h.heads v hv

section
variable {msg : Message} {r r' : Ptr} {cells₁ cells₁' : Fin npeers × Size → List Ptr}

theorem mine_taken {p : Ptr} (h : Mine env.slab pn s.routing cells p)
    (ht : RouteTaken env s msg r s' cells cells₁) : Mine env.slab pn s'.routing cells₁ p := by
  refine ⟨h.ne_null, ht.carved p h.carved, ?_, ?_⟩
  · rw [ht.adjRibIn]
    exact h.slot
  · intro qn z hq
    apply h.line qn z
    cases ht.taken with
    | inl hc =>
      obtain ⟨l, hl, rfl⟩ := hc
      exact FreeLists.mem_of_mem_pop hl hq
    | inr hc =>
      rw [hc.2.1] at hq
      exact hq

/-- A route is taken in one run or in both: slots and heads stay as they are. -/
theorem grow {ρ' : Ptr → Ptr → Prop} (h : Twin env pn own s t cells cells' ρ)
    (hle : ∀ p q, ρ p q → ρ' p q) (hone : OneToOne ρ')
    (hclasses : Agree ρ' (classAt env.slab) (classAt env.slab))
    (hcontent : Agree ρ' s'.routing.content t'.routing.content)
    (hmine : ∀ p q, ρ' p q → Mine env.slab pn s'.routing cells₁ p)
    (hmine' : ∀ p q, ρ' p q → Mine env.slab pn t'.routing cells₁' q)
    (hlines : ∀ z, List.Forall₂ ρ' (cells₁ (pn, z)) (cells₁' (pn, z)))
    (hs : s'.slotOf = s.slotOf ∧ s'.headOf = s.headOf)
    (ht : t'.slotOf = t.slotOf ∧ t'.headOf = t.headOf) :
    Twin env pn own s' t' cells₁ cells₁' ρ' := by
  refine ⟨hone, hclasses, hcontent, hmine, hmine', hlines, ?_, ?_⟩
  · intro w
    rw [hs.1, ht.1]
    exact (h.slots w).mono hle
  · intro w hw
    rw [hs.2, ht.2]
    exact (h.heads w hw).mono hle

/-- Nothing but counters and numbers of messages has changed. -/
theorem same (h : Twin env pn own s t cells cells' ρ)
    (hs : s'.routing = s.routing ∧ s'.slotOf = s.slotOf ∧ s'.headOf = s.headOf)
    (ht : t'.routing = t.routing ∧ t'.slotOf = t.slotOf ∧ t'.headOf = t.headOf) :
    Twin env pn own s' t' cells cells' ρ := by
  refine h.grow (fun _ _ hpq => hpq) h.one h.classes ?_ ?_ ?_ h.lines hs.2 ht.2
  · rw [hs.1, ht.1]
    exact h.content
  · rw [hs.1]
    exact h.mine
  · rw [ht.1]
    exact h.mine'

theorem counted (h : Twin env pn own s t cells cells' ρ) (n : Nat) :
    Twin env pn own { s with msgCount := n } t cells cells' ρ :=
  h.same ⟨rfl, rfl, rfl⟩ ⟨rfl, rfl, rfl⟩

theorem views_taken (ht : RouteTaken env s msg r s' cells cells₁) :
    s'.slotOf = s.slotOf ∧ s'.headOf = s.headOf := by
  constructor
  · funext k
    rw [slotOf, ht.adjRibIn, ht.tables, slotOf]
  · have hhead : s'.routing.head = s.routing.head := congrArg Rib.head ht.rib
    rw [headOf, hhead, ht.tables, headOf]

/-- Both routes are the first ones of their lines. -/
theorem takenFromLine (h : Twin env pn own s t cells cells' ρ) {z : Size} {l l' : List Ptr}
    {c : Content} (hs : RouteTaken env s msg r s' cells (Function.update cells (pn, z) l))
    (ht : RouteTaken env t msg r' t' cells' (Function.update cells' (pn, z) l'))
    (hl : cells (pn, z) = r :: l) (hl' : cells' (pn, z) = r' :: l')
    (hcontent : s'.routing.content = Function.update s.routing.content r c)
    (hcontent' : t'.routing.content = Function.update t.routing.content r' c) :
    Twin env pn own s' t' (Function.update cells (pn, z) l) (Function.update cells' (pn, z) l') ρ ∧
      ρ r r' := by
  have hlines := h.lines z
  rw [hl, hl'] at hlines
  obtain ⟨hpair, hrest⟩ := List.forall₂_cons.mp hlines
  refine ⟨h.grow (fun _ _ hpq => hpq) h.one h.classes ?_ ?_ ?_ ?_ (views_taken hs)
    (views_taken ht), hpair⟩
  · rw [hcontent, hcontent']
    exact h.content.update h.one hpair _
  · exact fun p q hpq => mine_taken (h.mine p q hpq) hs
  · exact fun p q hpq => mine_taken (h.mine' p q hpq) ht
  · intro y
    by_cases ey : y = z
    · rw [ey, Function.update_self, Function.update_self]
      exact hrest
    · have hne : (pn, y) ≠ (pn, z) := fun e => ey (Prod.mk.inj e).2
      rw [Function.update_of_ne hne, Function.update_of_ne hne]
      exact h.lines y

/-- Both routes are fresh from the pools, and partners from now on. -/
theorem takenFresh (h : Twin env pn own s t cells cells' ρ) (hm : msg.peer = pn) {c : Content}
    (hs : RouteTaken env s msg r s' cells cells) (ht : RouteTaken env t msg r' t' cells' cells')
    (hfresh : ¬ s.routing.slab.Carved env.slab r) (hfresh' : ¬ t.routing.slab.Carved env.slab r')
    (hclass : classAt env.slab r = classAt env.slab r')
    (hcontent : s'.routing.content = Function.update s.routing.content r c)
    (hcontent' : t'.routing.content = Function.update t.routing.content r' c) :
    Twin env pn own s' t' cells cells' (Paired ρ r r') := by
  subst hm
  have hnew : ∀ q, ¬ ρ r q := fun q hq => hfresh (h.mine r q hq).carved
  have hnew' : ∀ p, ¬ ρ p r' := fun p hp => hfresh' (h.mine' p r' hp).carved
  refine h.grow (fun _ _ hpq => .inl hpq) (h.one.paired hnew hnew') (h.classes.paired hclass)
    ?_ ?_ ?_ ?_ (views_taken hs) (views_taken ht)
  · rw [hcontent, hcontent']
    have hagree := ((h.content.update_left hnew c).flip.update_left hnew' c).flip
    apply Agree.paired hagree
    rw [Function.update_self, Function.update_self]
  · intro p q hpq
    cases hpq with
    | inl hpq => exact mine_taken (h.mine p q hpq) hs
    | inr hpq => exact hpq.1 ▸ hs.mine
  · intro p q hpq
    cases hpq with
    | inl hpq => exact mine_taken (h.mine' p q hpq) ht
    | inr hpq => exact hpq.2 ▸ ht.mine
  · exact fun z => (h.lines z).imp fun _ _ hpq => .inl hpq

theorem taken (h : Twin env pn own s t cells cells' ρ) (hm : msg.peer = pn)
    (hp : s.routing.slab.Placed env.slab) (hp' : t.routing.slab.Placed env.slab)
    (hs : RouteTaken env s msg r s' cells cells₁)
    (ht : RouteTaken env t msg r' t' cells' cells₁') :
    ∃ ρ', Twin env pn own s' t' cells₁ cells₁' ρ' ∧ ρ' r r' := by
  obtain ⟨tb, htb, hcontent⟩ := hs.content
  obtain ⟨tb', htb', hcontent'⟩ := ht.content
  obtain rfl := Except.ok.inj (htb.symm.trans htb')
  subst hm
  -- the lines are equally long, so both runs take the route from there or neither does
  have hlines := h.lines (Size.of (msg.length.toNat + sizeofRoute))
  cases hs.taken with
  | inl hc =>
    obtain ⟨l, hl, rfl⟩ := hc
    rw [hl] at hlines
    cases ht.taken with
    | inl hc' =>
      obtain ⟨l', hl', rfl⟩ := hc'
      exact ⟨ρ, h.takenFromLine hs ht hl hl' hcontent hcontent'⟩
    | inr hc' =>
      rw [hc'.1] at hlines
      cases hlines
  | inr hc =>
    obtain ⟨hl, rfl, hfresh, hclass⟩ := hc
    rw [hl] at hlines
    cases ht.taken with
    | inl hc' =>
      obtain ⟨l', hl', _⟩ := hc'
      rw [hl'] at hlines
      cases hlines
    | inr hc' =>
      obtain ⟨_, rfl, hfresh', hclass'⟩ := hc'
      rw [sizeClass_eq hp] at hclass
      rw [sizeClass_eq hp'] at hclass'
      exact ⟨Paired ρ r r', h.takenFresh rfl hs ht hfresh hfresh' (hclass.trans hclass'.symm)
        hcontent hcontent', .inr ⟨rfl, rfl⟩⟩

theorem otherTaken (h : Twin env pn own s t cells cells' ρ) (hm : msg.peer ≠ pn)
    (hs : RouteTaken env s msg r s' cells cells₁) :
    Twin env pn own s' t cells₁ cells' ρ ∧ ∀ q, ¬ ρ r q := by
  have hnew : ∀ q, ¬ ρ r q := by
    intro q hq
    have hmine := h.mine r q hq
    cases hs.taken with
    | inl hc =>
      obtain ⟨l, hl, _⟩ := hc
      apply hm
      apply hmine.line msg.peer (Size.of (msg.length.toNat + sizeofRoute))
      rw [hl]
      exact List.mem_cons_self
    | inr hc => exact hc.2.2.1 hmine.carved
  obtain ⟨tb, _, hcontent⟩ := hs.content
  refine ⟨h.grow (fun _ _ hpq => hpq) h.one h.classes ?_ ?_ h.mine' ?_ (views_taken hs) ⟨rfl, rfl⟩,
    hnew⟩
  · rw [hcontent]
    exact h.content.update_left hnew _
  · exact fun p q hpq => mine_taken (h.mine p q hpq) hs
  · intro z
    have hline : cells₁ (pn, z) = cells (pn, z) := by
      cases hs.taken with
      | inl hc =>
        obtain ⟨l, _, rfl⟩ := hc
        exact Function.update_of_ne (fun e => hm (Prod.mk.inj e).1.symm) _ _
      | inr hc => rw [hc.2.1]
    rw [hline]
    exact h.lines z

end

end Twin

end FastParse
