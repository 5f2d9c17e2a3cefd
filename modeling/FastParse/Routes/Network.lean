import FastParse.Phase3.LocalPref
import FastParse.Routes.Neighbours

namespace FastParse

open Framework State Attr

/-- A router that works through `msgs`, and the reader of the file of one of its peer groups, whose
`buf_parse_peer` hands on `sent`. -/
structure Relay (kind : Kind) (msgs sent : List Message) where
  env : Env
  s : State
  r : Routing
  hard : Bool
  templated : Templated env
  worked : Worked env msgs hard s r
  pix : Nat
  opened : (⟨kind.serializer, true⟩, pix) ∈ openGroups env.outlet.peergroups
  m : Mem
  base : Nat
  held : slice m base (fileOf r.egress.tx pix).length = fileOf r.egress.tx pix
  reader : Env
  spare : reader.spare = 0
  msgMax : reader.msgMax = 0
  pn : Fin npeers
  fuel : Nat
  rounds : r.egress.blocks.length < fuel
  handed : bufParsePeerWith reader recordMessage m pn fuel []
    ⟨base, ((fileOf r.egress.tx pix).length : Nat)⟩ =
      .ok (UInt32.ofNat r.egress.blocks.length, sent)

/-- The reader goes on with exactly these messages. -/
theorem Relay.bufParsePeer {kind : Kind} {msgs sent : List Message} (h : Relay kind msgs sent)
    (s : State) :
    bufParsePeer h.reader h.m h.fuel s h.pn ⟨h.base, ((fileOf h.r.egress.tx h.pix).length : Nat)⟩ =
      do
        let s ← sent.foldlM (State.parseUpdate h.reader) s
        return (UInt32.ofNat h.r.egress.blocks.length, s) := by
  rw [bufParsePeer_with]
  exact bufParsePeerWith_recorded h.handed _ s

/-- The messages that get to a router: its own, those another router passes on with a serializer
in `kinds`, or both of two feeds in any order. With each message at the start stands the number of
routers it comes through. -/
inductive Feed (kinds : List Kind) : List (Message × Nat) → List Message → Prop where
  | own (msgs : List Message) : Feed kinds (msgs.map fun msg => (msg, 0)) msgs
  | relay {src : List (Message × Nat)} {msgs sent : List Message} {kind : Kind}
      (feed : Feed kinds src msgs) (hkind : kind ∈ kinds) (router : Relay kind msgs sent) :
      Feed kinds (src.map fun x => (x.1, x.2 + 1)) sent
  | merge {src src' : List (Message × Nat)} {msgs msgs' all : List Message}
      (feed : Feed kinds src msgs) (feed' : Feed kinds src' msgs')
      (hall : all.Perm (msgs ++ msgs')) : Feed kinds (src ++ src') all

section
variable {t : Bigtable} {kind : Kind} {d : Dispatch} {ds : List Dispatch} {msg : Message}
  {msgs sent : List Message}

theorem exports_length {route : Route} {bs : List UInt8} (h : kind.Exports route bs) :
    bs.length = exportLength kind route :=
  Nat.add_left_cancel (Kind.serializer_length (h (fun _ => 0) 0 0))

theorem exportLength_pos (hkind : kind ≠ .copy) (route : Route) : 0 < exportLength kind route := by
  cases kind with
  | ibgp =>
    simp only [exportLength]
    omega
  | ebgp =>
    simp only [exportLength]
    omega
  | copy => exact absurd rfl hkind

theorem Exported.exports {route : Route} (h : Exported ⟨kind.serializer, true⟩ route) :
    ∃ bs, kind.Exports route bs := by
  obtain ⟨kind', bs, hser, hbs⟩ := h
  have hser : kind.serializer = kind'.serializer := hser
  refine ⟨bs, ?_⟩
  intro out q limit
  rw [hser]
  exact hbs out q limit

theorem ReadAs.hasRoute (h : ReadAs t ⟨kind.serializer, true⟩ d msg) (hkind : kind ≠ .copy)
    (hexported : Exported ⟨kind.serializer, true⟩ d.route) : msg.HasRoute := by
  refine ⟨?_, h.nlriLength_ne_zero⟩
  obtain ⟨bs, hexports⟩ := hexported.exports
  intro hzero
  have hlength := congrArg List.length h.attributes
  rw [length_slice, hzero, exportBytes_eq hexports, exports_length hexports] at hlength
  exact absurd hlength (Nat.ne_of_lt (exportLength_pos hkind d.route))

theorem forall₂_right {α β : Type} {R : α → β → Prop} {l : List α} {l' : List β}
    (h : List.Forall₂ R l l') {b : β} (hb : b ∈ l') : ∃ a ∈ l, R a b := by
  induction h with
  | nil => cases hb
  | cons hab _ ih =>
    cases hb with
    | head => exact ⟨_, List.mem_cons_self, hab⟩
    | tail _ hb =>
      obtain ⟨a, ha, hr⟩ := ih hb
      exact ⟨a, List.mem_cons_of_mem _ ha, hr⟩

/-- The blocks of the router, and the messages they are read as. -/
theorem Relay.dispatched (h : Relay kind msgs sent)
    (hsections : ∀ msg ∈ msgs, msg.SectionsAddUp) :
    ∃ t ds, List.Forall₂ (ReadAs t ⟨kind.serializer, true⟩) ds sent ∧
      (∀ d ∈ ds, Heard msgs d.route ∧ Exported ⟨kind.serializer, true⟩ d.route) ∧
      ∀ w, (∃ d ∈ ds, w ∈ d.indices.map t.bigtable) ↔ ∃ msg ∈ msgs, msg.Announces w := by
  obtain ⟨ds, hend⟩ := (run_followed h.templated hsections h.worked.parsed).delivered h.templated
    hsections h.worked.flushed h.worked.room h.worked.clean
  obtain ⟨calls, hcalls, hread⟩ :=
    hend.stream.read hend.encoded h.opened h.held (hend.count ▸ h.worked.few) h.reader h.pn
  have hrecord := hread _ recordMessage [] h.fuel (hend.count ▸ h.rounds)
  rw [h.handed, takenFrom_all 0 hcalls h.spare h.msgMax, foldlM_recordMessage] at hrecord
  have hsent : sent = calls := (Prod.mk.inj (Except.ok.inj hrecord)).2
  rw [← hsent] at hcalls
  have hpg : (⟨kind.serializer, true⟩ : Peergroup) ∈ h.env.outlet.peergroups :=
    List.fst_mem_of_mem_zipIdx (List.mem_filter.mp h.opened).1
  refine ⟨h.s.tables, ds, hcalls, ?_, ?_⟩
  · intro d hd
    exact ⟨hend.stream.route d hd, hend.stream.exported d hd _ hpg⟩
  · intro w
    rw [← @taught_words h.s.tables ⟨kind.serializer, true⟩ ds w]
    exact hend.words_iff h.worked.room (Routing.schedulePhase3_heads h.worked.flushed)
      (fun msg hmsg w hw => run_found h.templated hsections h.worked.parsed hmsg hw) _ w

theorem Relay.sections (h : Relay kind msgs sent) (hsections : ∀ msg ∈ msgs, msg.SectionsAddUp) :
    ∀ msg ∈ sent, msg.SectionsAddUp := by
  obtain ⟨_, _, hread, _⟩ := h.dispatched hsections
  intro msg hmsg
  obtain ⟨_, _, hd⟩ := forall₂_right hread hmsg
  exact hd.sections

end

section
variable {kinds : List Kind} {src : List (Message × Nat)} {msgs : List Message}

theorem Feed.sections (h : Feed kinds src msgs) (hsections : ∀ x ∈ src, x.1.SectionsAddUp) :
    ∀ msg ∈ msgs, msg.SectionsAddUp := by
  induction h with
  | own msgs =>
    intro msg hmsg
    exact hsections (msg, 0) (List.mem_map_of_mem hmsg)
  | relay _ _ router ih =>
    apply router.sections
    apply ih
    intro x hx
    exact hsections (x.1, x.2 + 1) (List.mem_map_of_mem hx)
  | merge _ _ hall ih ih' =>
    intro msg hmsg
    cases List.mem_append.mp (hall.mem_iff.mp hmsg) with
    | inl hmsg => exact ih (fun x hx => hsections x (List.mem_append_left _ hx)) msg hmsg
    | inr hmsg => exact ih' (fun x hx => hsections x (List.mem_append_right _ hx)) msg hmsg

/-- What holds of each route at the start, and of what a router makes of a route if it holds of
that, holds of each route at the end against one at the start. -/
theorem Feed.traced {R : Message → Nat → Message → Prop} (h : Feed kinds src msgs)
    (hsections : ∀ x ∈ src, x.1.SectionsAddUp)
    (hown : ∀ x ∈ src, x.1.HasRoute → R x.1 0 x.1)
    (hrelay : ∀ msg0 n msg sent route, ∀ kind ∈ kinds, R msg0 n msg → msg.Made route →
      Exported ⟨kind.serializer, true⟩ route →
      sent.attributeBytes = exportBytes kind.serializer route → R msg0 (n + 1) sent) :
    ∀ msg ∈ msgs, msg.HasRoute → ∃ x ∈ src, x.1.HasRoute ∧ R x.1 x.2 msg := by
  induction h with
  | own msgs =>
    intro msg hmsg hroute
    have hx : (msg, 0) ∈ msgs.map fun msg => (msg, 0) := List.mem_map_of_mem hmsg
    exact ⟨_, hx, hroute, hown _ hx hroute⟩
  | @relay _ _ _ kind feed hkind router ih =>
    intro msg hmsg _
    have hsrc := List.forall_mem_map.mp hsections
    obtain ⟨t, ds, hread, hds, _⟩ := router.dispatched (feed.sections hsrc)
    obtain ⟨d, hd, hr⟩ := forall₂_right hread hmsg
    obtain ⟨hheard, hexported⟩ := hds d hd
    obtain ⟨before, hbefore, hmade⟩ := hheard
    obtain ⟨x, hx, hroute, htraced⟩ :=
      ih hsrc (List.forall_mem_map.mp hown) before hbefore hmade.hasRoute
    exact ⟨(x.1, x.2 + 1), List.mem_map_of_mem hx, hroute,
      hrelay _ _ _ _ _ kind hkind htraced hmade hexported hr.attributes⟩
  | merge feed feed' hall ih ih' =>
    obtain ⟨hsrc, hsrc'⟩ := List.forall_mem_append.mp hsections
    obtain ⟨hown, hown'⟩ := List.forall_mem_append.mp hown
    intro msg hmsg hroute
    cases List.mem_append.mp (hall.mem_iff.mp hmsg) with
    | inl hmsg =>
      obtain ⟨x, hx, hrest⟩ := ih hsrc hown msg hmsg hroute
      exact ⟨x, List.mem_append_left _ hx, hrest⟩
    | inr hmsg =>
      obtain ⟨x, hx, hrest⟩ := ih' hsrc' hown' msg hmsg hroute
      exact ⟨x, List.mem_append_right _ hx, hrest⟩

end

def groupEnv (kind : Kind) : Env :=
  { plainEnv false with outlet := ⟨[⟨kind.serializer, true⟩], fun _ => true⟩ }

theorem groupEnv_templated (kind : Kind) : Templated (groupEnv kind) := by
  intro pg hpg
  obtain rfl := List.mem_singleton.mp hpg
  exact ⟨kind, rfl⟩

/-- A router with one open file, and the second peer of the next router as its reader. -/
def groupHop (kind : Kind) (msgs : List Message) :
    Exec (State × Routing × UInt32 × List Message) := do
  let s ← msgs.foldlM (State.parseUpdate (groupEnv kind)) (start (groupEnv kind))
  let r ← s.routing.schedulePhase3 (groupEnv kind) s.tables true
  let (n, sent) ← bufParsePeerWith (groupEnv kind) recordMessage
    (bytesMem (fileOf r.egress.tx 0)) 1 4 [] ⟨0, ((fileOf r.egress.tx 0).length : Nat)⟩
  return (s, r, n, sent)

/-- Whether the tables and the pools had room and no message was too long, the blocks and the
messages read. -/
def hopFacts : State × Routing × UInt32 × List Message → Bool × Nat × UInt32
  | (s, r, n, _) =>
    (decide (s.tables.bigtableIndex ≤ big ∧ (s.routing.slab.pools .small).index ≤ smallRoom ∧
      r.egress.tx.overLengthDetected = false), r.egress.blocks.length, n)

theorem groupHop_relay {kind : Kind} {msgs : List Message}
    {x : State × Routing × UInt32 × List Message} (h : groupHop kind msgs = .ok x)
    (hx : hopFacts x = (true, 2, 2)) : Nonempty (Relay kind msgs x.2.2.2) := by
  simp only [groupHop, bind_eq_ok] at h
  obtain ⟨s, hs, r, hr, ⟨n, sent⟩, hhanded, h⟩ := h
  cases h
  simp only [hopFacts, Prod.mk.injEq, decide_eq_true_eq] at hx
  obtain ⟨⟨hroom, hsmall, hclean⟩, hblocks, hn⟩ := hx
  exact ⟨{
    env := groupEnv kind
    s := s
    r := r
    hard := true
    templated := groupEnv_templated kind
    worked := ⟨hs, hr, hroom, hsmall, hclean, by rw [hblocks]; decide⟩
    pix := 0
    opened := List.mem_cons_self
    m := bytesMem (fileOf r.egress.tx 0)
    base := 0
    held := slice_bytesMem _
    reader := groupEnv kind
    spare := rfl
    msgMax := rfl
    pn := 1
    fuel := 4
    rounds := by
      rw [hblocks]
      decide
    handed := by
      rw [hblocks, hhanded, hn]
      rfl }⟩

theorem groupHops_relays {kind : Kind} {msgs : List Message}
    (h : (groupHop kind msgs >>= fun x =>
      (groupHop kind x.2.2.2).map fun y => (hopFacts x, hopFacts y)) =
        .ok ((true, 2, 2), true, 2, 2)) :
    ∃ sent last, Nonempty (Relay kind msgs sent) ∧ Nonempty (Relay kind sent last) := by
  obtain ⟨x, hfirst, h⟩ := bind_eq_ok.mp h
  obtain ⟨y, hsecond, e⟩ := exists_of_map_eq_ok h
  obtain ⟨hx, hy⟩ := Prod.mk.inj e
  exact ⟨_, _, groupHop_relay hfirst hx, groupHop_relay hsecond hy⟩

end FastParse
