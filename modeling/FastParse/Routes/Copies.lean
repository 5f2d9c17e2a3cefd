import FastParse.Phase3.CopyOrder
import FastParse.Routes.Hops

namespace FastParse

open Framework State Attr

/-- The attributes at the start of a list, as far as they have the types of `wanted` in turn. -/
def initialRun : List UInt8 → List Attribute → List Attribute
  | w :: wanted, a :: l => if a.typeCode = w then a :: initialRun wanted l else []
  | _, _ => []

section
variable {wanted : List UInt8} {l : List Attribute}

/-- One search behind the first attribute uses up one attribute after the other in vain. -/
theorem picked_behind (hs : wanted.Pairwise (· < ·)) (h : (types l).Sublist wanted.tail) :
    picked wanted l = [] := by
  induction wanted generalizing l with
  | nil => rfl
  | cons w wanted ih =>
    obtain ⟨hw, hs⟩ := List.pairwise_cons.mp hs
    cases l with
    | nil => exact ih hs (List.nil_sublist _)
    | cons a l =>
      have hless : w < a.typeCode := hw _ (h.subset List.mem_cons_self)
      have hne : a.typeCode ≠ w := by
        intro e
        rw [e] at hless
        exact UInt8.lt_irrefl w hless
      rw [picked, seek, if_neg (UInt8.lt_asymm hless), if_neg hne]
      exact ih hs h.tail

/-- Where nothing but the wanted types is left, in their order, only the first of them that are all
there are found. -/
theorem picked_eq_initialRun (hs : wanted.Pairwise (· < ·)) (h : (types l).Sublist wanted) :
    picked wanted l = initialRun wanted l := by
  induction wanted generalizing l with
  | nil => rfl
  | cons w wanted ih =>
    cases l with
    | nil => exact picked_behind hs (List.nil_sublist _)
    | cons a l =>
      rw [initialRun]
      split_ifs with e
      · obtain ⟨_, hs⟩ := List.pairwise_cons.mp hs
        have hless : ¬ a.typeCode < w := e ▸ UInt8.lt_irrefl w
        rw [picked, seek, if_neg hless, if_pos e, ← ih hs h.tail]
        rfl
      · apply picked_behind hs
        cases h with
        | cons _ h => exact h
        | cons_cons _ h => exact absurd rfl e

theorem initialRun_initialRun (wanted : List UInt8) (l : List Attribute) :
    initialRun wanted (initialRun wanted l) = initialRun wanted l := by
  induction wanted generalizing l with
  | nil => rfl
  | cons w wanted ih =>
    cases l with
    | nil => rfl
    | cons a l =>
      rw [initialRun]
      split_ifs with e
      · rw [initialRun, if_pos e, ih]
      · rfl

theorem initialRun_canonical (wanted : List UInt8) (l : List Attribute) :
    initialRun wanted (l.map Attribute.canonical) =
      (initialRun wanted l).map Attribute.canonical := by
  induction wanted generalizing l with
  | nil => rfl
  | cons w wanted ih =>
    cases l with
    | nil => rfl
    | cons a l =>
      have htype : a.canonical.typeCode = a.typeCode := rfl
      rw [List.map_cons, initialRun, initialRun, htype]
      split_ifs
      · rw [ih, List.map_cons]
      · rfl

end

/-- The types that are copied, in the order they are looked for. -/
def copyTypes : List UInt8 := [origin, asPath, nextHop, community]

theorem copyTypes_sorted : copyTypes.Pairwise (· < ·) := by decide

/-- What `serialize_copy` makes of a list of attributes. -/
def copied (l : List Attribute) : List Attribute := (picked copyTypes l).map Attribute.canonical

theorem copy_sends (route : Route) :
    exportBytes serializeCopy route = encodeAll (copied route.block) :=
  @exportBytes_eq .copy route _ (copy_exports route)

def settled (l : List Attribute) : List Attribute :=
  (initialRun copyTypes (picked copyTypes l)).map Attribute.canonical

theorem map_canonical_canonical (l : List Attribute) :
    (l.map Attribute.canonical).map Attribute.canonical = l.map Attribute.canonical := by
  rw [List.map_map]
  exact List.map_congr_left fun a _ => a.canonical_canonical

theorem copied_of_sublist {l : List Attribute} (h : (types l).Sublist copyTypes) :
    copied (l.map Attribute.canonical) = (initialRun copyTypes l).map Attribute.canonical := by
  have htypes : (types (l.map Attribute.canonical)).Sublist copyTypes := by
    rw [types_canonical]
    exact h
  rw [copied, picked_eq_initialRun copyTypes_sorted htypes, initialRun_canonical,
    map_canonical_canonical]

theorem types_initialRun (wanted : List UInt8) (l : List Attribute) :
    (types (initialRun wanted l)).Sublist wanted := by
  induction wanted generalizing l with
  | nil => exact List.Sublist.refl _
  | cons w wanted ih =>
    cases l with
    | nil => exact List.nil_sublist _
    | cons a l =>
      rw [initialRun]
      split_ifs with e
      · rw [types, List.map_cons, e]
        exact (ih l).cons_cons w
      · exact List.nil_sublist _

theorem copied_copied (l : List Attribute) : copied (copied l) = settled l :=
  copied_of_sublist (picked_types copyTypes l)

theorem copied_settled (l : List Attribute) : copied (settled l) = settled l := by
  rw [settled, copied_of_sublist (types_initialRun _ _), initialRun_initialRun]

theorem copied_iterate (l : List Attribute) (n : Nat) : copied^[n + 2] l = settled l := by
  induction n with
  | zero => exact copied_copied l
  | succ n ih => rw [Function.iterate_succ_apply', ih, copied_settled]

/-- The attributes behind `n` routers. -/
def copiesAfter (msg : Message) : Nat → List UInt8
  | 0 => msg.attributeBytes
  | 1 => encodeAll (copied msg.block)
  | _ + 2 => encodeAll (settled msg.block)

/-- `msg` is what `msg0` has become behind `n` routers. -/
def CopyAlong (msg0 msg : Message) : Nat → Prop
  | 0 => msg = msg0
  | n + 1 => msg.attributeBytes = encodeAll (copied^[n + 1] msg0.block)

section
variable {msg0 msg : Message} {n : Nat}

theorem CopyAlong.block (h : CopyAlong msg0 msg n) : msg.block = copied^[n] msg0.block := by
  cases n with
  | zero =>
    have h : msg = msg0 := h
    rw [h]
    rfl
  | succ n => exact Message.block_eq h

theorem CopyAlong.bytes (h : CopyAlong msg0 msg n) : msg.attributeBytes = copiesAfter msg0 n := by
  match n with
  | 0 =>
    have h : msg = msg0 := h
    rw [h]
    rfl
  | 1 => exact h
  | n + 2 =>
    have h : msg.attributeBytes = encodeAll (copied^[n + 2] msg0.block) := h
    rw [h, copied_iterate]
    rfl

end

/-- In every tree of routers that send with `serialize_copy`, the second router on the way of a
route cuts its attributes down to those of ORIGIN, AS_PATH, NEXT_HOP and COMMUNITY that the first
one has found without a gap, and from then on they stay as they are. -/
theorem copies_settle {src : List (Message × Nat)} {msgs : List Message} (h : Feed [.copy] src msgs)
    (hsections : ∀ x ∈ src, x.1.SectionsAddUp) :
    ∀ msg ∈ msgs, msg.HasRoute → ∃ x ∈ src, x.1.HasRoute ∧
      msg.attributeBytes = copiesAfter x.1 x.2 := by
  have hall := h.traced (R := fun msg0 n msg => CopyAlong msg0 msg n) hsections ?_ ?_
  · intro msg hmsg hroute
    obtain ⟨x, hx, hroute, halong⟩ := hall msg hmsg hroute
    exact ⟨x, hx, hroute, halong.bytes⟩
  · intro x _ _
    rfl
  · intro msg0 n msg sent route kind hkind halong hmade _ hsent
    obtain rfl : kind = .copy := List.mem_singleton.mp hkind
    change sent.attributeBytes = exportBytes serializeCopy route at hsent
    change sent.attributeBytes = encodeAll (copied^[n + 1] msg0.block)
    rw [hsent, copy_sends, hmade.block, halong.block, Function.iterate_succ_apply']

def copyTwo : List Message :=
  [updateMessage 0 [] (encodeAll [plainOrigin, plainPath, wellKnown 4 [0, 0, 0, 77] (by decide),
      wellKnown community [0, 42, 0, 6] (by decide)]) [8, 10, 8, 11],
    updateMessage 1 [] (encodeAll [plainOrigin, plainPath, plainHop]) [8, 12]]

/-- The COMMUNITY gets through the first router but not through the second. -/
theorem copies_settle_two :
    ∃ sent msgs, Nonempty (Relay .copy copyTwo sent) ∧ Nonempty (Relay .copy sent msgs) ∧
      (∀ msg ∈ msgs, msg.HasRoute → ∃ x ∈ copyTwo.map fun msg => (msg, 2), x.1.HasRoute ∧
        msg.attributeBytes = copiesAfter x.1 x.2) ∧
      copyTwo.map (fun msg => (types (copied msg.block), types (settled msg.block))) =
        [([1, 2, 8], [1, 2]), ([1, 2, 3], [1, 2, 3])] := by
  obtain ⟨sent, msgs, ⟨first⟩, ⟨second⟩⟩ := @groupHops_relays .copy copyTwo (by decide +kernel)
  have hfeed := ((Feed.own copyTwo).relay (List.mem_singleton_self Kind.copy) first).relay
    (List.mem_singleton_self _) second
  rw [List.map_map, List.map_map] at hfeed
  have hsections : ∀ x ∈ copyTwo.map fun msg => (msg, 2), x.1.SectionsAddUp :=
    List.forall_mem_map.mpr (by decide +kernel)
  exact ⟨sent, msgs, ⟨first⟩, ⟨second⟩, copies_settle hfeed hsections, by decide +kernel⟩

end FastParse
