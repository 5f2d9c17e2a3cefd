import FastParse.Framework.Chain

namespace FastParse.Framework

variable {α : Type}

/-- From `top` the links run through exactly these cells, each of them once. -/
structure LinkedStack (next : α → α) (null top : α) (cells : List α) : Prop where
  chain : Chain next null top cells
  nodup : cells.Nodup

namespace LinkedStack

variable {next : α → α} {null top x : α} {cells : List α}

theorem empty (next : α → α) (null : α) : LinkedStack next null null [] := ⟨rfl, List.nodup_nil⟩

theorem top_eq_headD (h : LinkedStack next null top cells) : top = cells.headD null := by
  cases cells with
  | nil => exact h.chain
  | cons x l => exact h.chain.1

theorem top_eq_null_iff (h : LinkedStack next null top cells) : top = null ↔ cells = [] := by
  cases cells with
  | nil => simpa using h.top_eq_headD
  | cons x l =>
    rw [h.chain.1]
    simpa using h.chain.2.1

theorem pop {l : List α} (h : LinkedStack next null top (x :: l)) :
    LinkedStack next null (next top) l := by
  obtain ⟨rfl, _, hl⟩ := h.chain
  exact ⟨hl, (List.nodup_cons.mp h.nodup).2⟩

/-- A cell that is not on the stack and already linked to the top becomes the top. -/
theorem push (h : LinkedStack next null top cells) (hnull : x ≠ null) (hx : x ∉ cells)
    (hlink : next x = top) : LinkedStack next null x (x :: cells) :=
  ⟨h.chain.push hnull hlink, List.nodup_cons.mpr ⟨hx, h.nodup⟩⟩

variable [DecidableEq α]

/-- The links of cells that are not on the stack may change in any way. -/
theorem write (h : LinkedStack next null top cells) (hx : x ∉ cells) (y : α) :
    LinkedStack (Function.update next x y) null top cells := by
  refine ⟨h.chain.congr ?_, h.nodup⟩
  intro c hc
  have hne : c ≠ x := fun e => hx (e ▸ hc)
  exact Function.update_of_ne hne y next

end LinkedStack

end FastParse.Framework
