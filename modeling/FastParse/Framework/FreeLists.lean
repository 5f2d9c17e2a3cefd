import FastParse.Framework.LinkedStack

namespace FastParse.Framework

variable {κ α : Type}

/-- List `k` starts at `head k` and runs through exactly `cells k`. -/
structure FreeLists (next : α → α) (null : α) (head : κ → α) (cells : κ → List α) : Prop where
  chain : ∀ k, Chain next null (head k) (cells k)
  nodup : ∀ k, (cells k).Nodup
  disjoint : ∀ j k x, x ∈ cells j → x ∈ cells k → j = k

namespace FreeLists

variable {next : α → α} {null : α} {head : κ → α} {cells : κ → List α}

theorem empty (hnull : ∀ k, head k = null) : FreeLists next null head fun _ => [] := by
  refine ⟨hnull, ?_, ?_⟩
  · intro k
    exact List.nodup_nil
  · intro j k x hx
    simp at hx

theorem stack (h : FreeLists next null head cells) (k : κ) :
    LinkedStack next null (head k) (cells k) := ⟨h.chain k, h.nodup k⟩

theorem of_stacks (h : ∀ k, LinkedStack next null (head k) (cells k))
    (hdisjoint : ∀ j k x, x ∈ cells j → x ∈ cells k → j = k) :
    FreeLists next null head cells :=
  ⟨fun k => (h k).chain, fun k => (h k).nodup, hdisjoint⟩

theorem linked_iff (h : FreeLists next null head cells) {k : κ} {x : α} :
    Linked next null (head k) x ↔ x ∈ cells k :=
  (h.chain k).linked_iff

theorem ne_null (h : FreeLists next null head cells) {k : κ} {x : α} (hx : x ∈ cells k) :
    x ≠ null :=
  (h.chain k).ne_null hx

/-- Link words of cells that are on no list may change. -/
theorem congr {next' : α → α} (h : FreeLists next null head cells)
    (e : ∀ k, ∀ x ∈ cells k, next' x = next x) : FreeLists next' null head cells :=
  ⟨fun k => (h.chain k).congr (e k), h.nodup, h.disjoint⟩

variable [DecidableEq κ]

/-- What is left after taking the first cell of list `k`. -/
theorem mem_of_mem_pop {k j : κ} {x y : α} {l : List α} (hk : cells k = x :: l)
    (hy : y ∈ Function.update cells k l j) : y ∈ cells j := by
  by_cases e : j = k
  · subst j
    rw [Function.update_self] at hy
    rw [hk]
    exact List.mem_cons_of_mem x hy
  · rwa [Function.update_of_ne e] at hy

theorem pop (h : FreeLists next null head cells) {k : κ} {l : List α}
    (hk : cells k = head k :: l) :
    FreeLists next null (Function.update head k (next (head k))) (Function.update cells k l) := by
  apply of_stacks
  · intro j
    by_cases e : j = k
    · subst j
      have hs := h.stack k
      rw [hk] at hs
      simpa using hs.pop
    · simpa [Function.update_of_ne e] using h.stack j
  · intro i j x hi hj
    exact h.disjoint i j x (mem_of_mem_pop hk hi) (mem_of_mem_pop hk hj)

theorem notMem_pop (h : FreeLists next null head cells) {k : κ} {x : α} {l : List α}
    (hk : cells k = x :: l) (j : κ) : x ∉ Function.update cells k l j := by
  intro hj
  -- it could only be left on its own list, where it stood once
  have hmem : x ∈ cells k := by simp [hk]
  have e := h.disjoint j k x (mem_of_mem_pop hk hj) hmem
  rw [e, Function.update_self] at hj
  have hn := h.nodup k
  rw [hk, List.nodup_cons] at hn
  exact hn.1 hj

theorem mem_push {k j : κ} {x y : α} (hy : y ∈ Function.update cells k (x :: cells k) j) :
    y = x ∧ j = k ∨ y ∈ cells j := by
  by_cases e : j = k
  · subst j
    rw [Function.update_self, List.mem_cons] at hy
    exact hy.imp (fun e => ⟨e, rfl⟩) id
  · rw [Function.update_of_ne e] at hy
    exact .inr hy

/-- A cell that is on no list and already linked to the first cell of list `k` goes in
front of it. -/
theorem push (h : FreeLists next null head cells) {k : κ} {x : α} (hx : x ≠ null)
    (hfresh : ∀ j, x ∉ cells j) (hlink : next x = head k) :
    FreeLists next null (Function.update head k x) (Function.update cells k (x :: cells k)) := by
  apply of_stacks
  · intro j
    by_cases e : j = k
    · subst j
      simpa using (h.stack k).push hx (hfresh k) hlink
    · simpa [Function.update_of_ne e] using h.stack j
  · intro i j y hi hj
    cases mem_push hi with
    | inl hy =>
      obtain ⟨rfl, rfl⟩ := hy
      cases mem_push hj with
      | inl hy => exact hy.2.symm
      | inr hy => exact absurd hy (hfresh j)
    | inr hy =>
      cases mem_push hj with
      | inl hy' => exact absurd hy (hy'.1 ▸ hfresh i)
      | inr hy' => exact h.disjoint i j y hy hy'

end FreeLists

end FastParse.Framework
