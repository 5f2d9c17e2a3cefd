import FastParse.Framework.Loop
import FastParse.Phase3.ReadBack
import FastParse.Update.Accepted

namespace FastParse

open Framework

section
variable {σ : Type} (env : Env) (parse : σ → Message → Exec σ) (m : Mem) (pn : Fin npeers)

def takeMessageWith (s : σ) (msgCount : UInt32) (msgLength : UInt16) (msg : Message) : Exec σ :=
  if msgLength > 23 ∧ env.spare ≤ msgCount then parse s msg else .ok s

/-- One round: the position, the count and what `parse` works on. -/
def messageRound (limit : Nat) :
    Nat × UInt32 × σ → Exec ((Nat × UInt32 × σ) ⊕ (UInt32 × σ))
  | (ptr, msgCount, s) =>
    if ptr < limit ∧ (env.msgMax = 0 ∨ msgCount.toUInt64 < env.msgMax) then do
      assert (markerAt m ptr = true)
      let msgLength := getw16 m (ptr + 16)
      let msgType := getw8 m (ptr + 18)
      assert (2 = msgType)
      let s ← takeMessageWith env parse s msgCount msgLength ⟨pn, m, ptr + 19, msgLength - 19⟩
      return .inl (ptr + msgLength.toNat, msgCount + 1, s)
    else return .inr (msgCount, s)

def bufParsePeerWith (fuel : Nat) (s : σ) (buf : Buf) : Exec (UInt32 × σ) :=
  loop .loop (messageRound env parse m pn (buf.base + buf.length).toNat) fuel (buf.base, 0, s)

end

section
variable {env : Env} {m : Mem} {pn : Fin npeers}

theorem messageLoop_loop (limit fuel ptr : Nat) (msgCount : UInt32) (s : State) :
    messageLoop env m pn limit fuel ptr msgCount s =
      loop .loop (messageRound env (State.parseUpdate env) m pn limit) fuel
        (ptr, msgCount, s) := by
  induction fuel generalizing ptr msgCount s with
  | zero => rfl
  | succ fuel ih =>
    rw [messageLoop, loop, messageRound]
    split_ifs
    · cases assert (markerAt m ptr = true) with
      | error halt => rfl
      | ok _ =>
        simp only [bind, Except.bind]
        cases assert (2 = getw8 m (ptr + 18)) with
        | error halt => rfl
        | ok _ =>
          change (takeMessage env s msgCount (getw16 m (ptr + 16)) _ >>= fun s =>
            messageLoop env m pn limit fuel _ _ s) = _
          simp only [ih]
          rw [takeMessage, takeMessageWith]
          split_ifs
          · cases s.parseUpdate env ⟨pn, m, ptr + 19, getw16 m (ptr + 16) - 19⟩ with
            | error halt => rfl
            | ok s' => rfl
          · rfl
    · rfl

theorem bufParsePeer_with (fuel : Nat) (s : State) (buf : Buf) :
    bufParsePeer env m fuel s pn buf =
      bufParsePeerWith env (State.parseUpdate env) m pn fuel s buf :=
  messageLoop_loop _ _ _ _ _

end

/-- An UPDATE: the marker, its own length, the type, and a body. -/
def frame (body : List UInt8) : List UInt8 :=
  List.replicate 16 0xff ++ (bytes16 (UInt16.ofNat (19 + body.length)) ++ 2 :: body)

@[simp] theorem length_frame (body : List UInt8) : (frame body).length = 19 + body.length := by
  rw [frame, List.length_append, List.length_append, List.length_replicate, length_bytes16,
    List.length_cons]
  omega

theorem frame_fields {m : Mem} {p : Nat} {body : List UInt8} (hsize : body.length ≤ 65516)
    (h : slice m p (frame body).length = frame body) :
    markerAt m p = true ∧ (getw16 m (p + 16)).toNat = 19 + body.length ∧
      getw8 m (p + 18) = 2 ∧ slice m (p + 19) body.length = body := by
  have hsplit : (frame body).length = 16 + (2 + (body.length + 1)) := by
    rw [length_frame]
    omega
  rw [hsplit, slice_add, slice_add, slice_succ m (p + 16 + 2), frame] at h
  obtain ⟨hmarker, h⟩ := List.append_inj h (by rw [length_slice]; rfl)
  obtain ⟨hlength, h⟩ := List.append_inj h (by rw [length_slice]; rfl)
  obtain ⟨htype, hbody⟩ := List.cons.inj h
  refine ⟨markerAt_of_slice hmarker, ?_, htype, hbody⟩
  rw [getw16_of_slice hlength, UInt16.toNat_ofNat']
  omega

/-- What `parse_update` would be handed for each body in turn. -/
def framedAt (pn : Fin npeers) (m : Mem) : Nat → List (List UInt8) → List Message
  | _, [] => []
  | p, body :: rest =>
    ⟨pn, m, p + 19, UInt16.ofNat body.length⟩ :: framedAt pn m (p + (19 + body.length)) rest

/-- Message number `i` is not passed over and carries something. -/
def Taken (env : Env) (i : Nat) (msg : Message) : Prop :=
  env.spare.toNat ≤ i ∧ (env.msgMax = 0 ∨ i < env.msgMax.toNat) ∧ 23 < 19 + msg.length.toNat

instance (env : Env) (i : Nat) (msg : Message) : Decidable (Taken env i msg) :=
  inferInstanceAs (Decidable (_ ∧ _))

/-- Those that are taken, of messages numbered from `i` on. -/
def takenFrom (env : Env) (i : Nat) (msgs : List Message) : List Message :=
  ((msgs.zipIdx i).filter fun x => Taken env x.2 x.1).map Prod.fst

/-- How far `buf_parse_peer` counts. -/
def countUpTo (env : Env) (n : Nat) : Nat := if env.msgMax = 0 then n else min n env.msgMax.toNat

section
variable {σ : Type} {env : Env} {m : Mem}

theorem takenFrom_cons (i : Nat) (msg : Message) (msgs : List Message) :
    takenFrom env i (msg :: msgs) =
      (if Taken env i msg then [msg] else []) ++ takenFrom env (i + 1) msgs := by
  rw [takenFrom, List.zipIdx_cons, List.filter_cons]
  by_cases h : Taken env i msg
  · simp [h, takenFrom]
  · simp [h, takenFrom]

theorem takenFrom_beyond {i : Nat} (hmax : env.msgMax ≠ 0) (hi : env.msgMax.toNat ≤ i)
    (msgs : List Message) : takenFrom env i msgs = [] := by
  induction msgs generalizing i with
  | nil => rfl
  | cons msg msgs ih =>
    have hnot : ¬ Taken env i msg := by
      rintro ⟨_, hlimit, _⟩
      cases hlimit with
      | inl e => exact hmax e
      | inr hlt => exact Nat.not_lt.mpr hi hlt
    rw [takenFrom_cons, if_neg hnot, ih (by omega)]
    rfl

theorem below_max {i : Nat} (hi : i < 2 ^ 32) :
    (env.msgMax = 0 ∨ (UInt32.ofNat i).toUInt64 < env.msgMax) ↔
      (env.msgMax = 0 ∨ i < env.msgMax.toNat) := by
  rw [UInt64.lt_iff_toNat_lt, UInt32.toNat_toUInt64, UInt32.toNat_ofNat', Nat.mod_eq_of_lt hi]

/-- The round at a message that passes the header checks. -/
theorem messageRound_taken {limit ptr : Nat} {msgCount : UInt32}
    (parse : σ → Message → Exec σ) (pn : Fin npeers) (s : σ)
    (htest : ptr < limit ∧ (env.msgMax = 0 ∨ msgCount.toUInt64 < env.msgMax))
    (hmarker : markerAt m ptr = true) (htype : getw8 m (ptr + 18) = 2) :
    messageRound env parse m pn limit (ptr, msgCount, s) =
      takeMessageWith env parse s msgCount (getw16 m (ptr + 16))
          ⟨pn, m, ptr + 19, getw16 m (ptr + 16) - 19⟩ >>= fun s =>
        .ok (.inl (ptr + (getw16 m (ptr + 16)).toNat, msgCount + 1, s)) := by
  have hheader : assert (markerAt m ptr = true) = .ok () := if_pos hmarker
  rw [messageRound, if_pos htest, hheader, htype]
  rfl

theorem messageRound_stop {limit ptr : Nat} {msgCount : UInt32}
    (parse : σ → Message → Exec σ) (m : Mem) (pn : Fin npeers) (s : σ)
    (htest : ¬ (ptr < limit ∧ (env.msgMax = 0 ∨ msgCount.toUInt64 < env.msgMax))) :
    messageRound env parse m pn limit (ptr, msgCount, s) = .ok (.inr (msgCount, s)) := by
  rw [messageRound, if_neg htest]
  rfl

/-- The round at message number `i`, while the limit is not reached. -/
theorem messageRound_framed {limit p i : Nat} {body : List UInt8} (parse : σ → Message → Exec σ)
    (pn : Fin npeers) (s : σ) (hsize : body.length ≤ 65516)
    (hm : slice m p (frame body).length = frame body) (hi : i < 2 ^ 32) (hp : p < limit)
    (hbelow : env.msgMax = 0 ∨ i < env.msgMax.toNat) :
    messageRound env parse m pn limit (p, UInt32.ofNat i, s) =
      (if Taken env i ⟨pn, m, p + 19, UInt16.ofNat body.length⟩ then
        parse s ⟨pn, m, p + 19, UInt16.ofNat body.length⟩ else .ok s) >>= fun s =>
          .ok (.inl (p + (19 + body.length), UInt32.ofNat (i + 1), s)) := by
  obtain ⟨hmarker, hlength, htype, _⟩ := frame_fields hsize hm
  have hbytes : (UInt16.ofNat body.length).toNat = body.length := by
    rw [UInt16.toNat_ofNat']
    omega
  have hmsg : getw16 m (p + 16) - 19 = UInt16.ofNat body.length := by
    apply UInt16.toNat_inj.mp
    rw [UInt16.toNat_sub, hlength, hbytes]
    change (2 ^ 16 - 19 + (19 + body.length)) % 2 ^ 16 = _
    omega
  have htaken : (getw16 m (p + 16) > 23 ∧ env.spare ≤ UInt32.ofNat i) ↔
      Taken env i ⟨pn, m, p + 19, UInt16.ofNat body.length⟩ := by
    rw [gt_iff_lt, UInt16.lt_iff_toNat_lt, hlength, UInt32.le_iff_toNat_le,
      UInt32.toNat_ofNat', Nat.mod_eq_of_lt hi, Taken, hbytes]
    constructor
    · rintro ⟨hlong, hspare⟩
      exact ⟨hspare, hbelow, hlong⟩
    · rintro ⟨hspare, _, hlong⟩
      exact ⟨hlong, hspare⟩
  have hnext : UInt32.ofNat i + 1 = UInt32.ofNat (i + 1) := (UInt32.ofNat_add i 1).symm
  rw [messageRound_taken parse pn s ⟨hp, (below_max hi).mpr hbelow⟩ hmarker htype, hmsg, hlength,
    hnext, takeMessageWith]
  simp only [htaken]

theorem countUpTo_all {n : Nat} (h : env.msgMax = 0 ∨ n ≤ env.msgMax.toNat) :
    countUpTo env n = n := by
  rw [countUpTo]
  split_ifs with hzero
  · rfl
  · exact Nat.min_eq_left (h.resolve_left hzero)

theorem countUpTo_max {n : Nat} (hmax : env.msgMax ≠ 0) (h : env.msgMax.toNat ≤ n) :
    countUpTo env n = env.msgMax.toNat := by
  rw [countUpTo, if_neg hmax]
  exact Nat.min_eq_right h

theorem loop_framed {fuel p : Nat} {bodies : List (List UInt8)} (env : Env)
    (parse : σ → Message → Exec σ) (pn : Fin npeers) (i : Nat) (s : σ)
    (hsize : ∀ body ∈ bodies, body.length ≤ 65516)
    (hm : slice m p (bodies.flatMap frame).length = bodies.flatMap frame)
    (hcount : i + bodies.length < 2 ^ 32) (hmax : env.msgMax = 0 ∨ i ≤ env.msgMax.toNat)
    (hfuel : bodies.length < fuel) :
    loop .loop (messageRound env parse m pn (p + (bodies.flatMap frame).length)) fuel
        (p, UInt32.ofNat i, s) = do
      let s ← (takenFrom env i (framedAt pn m p bodies)).foldlM parse s
      return (UInt32.ofNat (countUpTo env (i + bodies.length)), s) := by
  obtain ⟨fuel, rfl⟩ : ∃ k, fuel = k + 1 := ⟨fuel - 1, by omega⟩
  induction bodies generalizing fuel i p s with
  | nil =>
    have hstop : ¬ p < p + (([] : List (List UInt8)).flatMap frame).length := Nat.lt_irrefl p
    rw [loop_done (messageRound_stop parse m pn s fun htest => hstop htest.1), List.length_nil,
      Nat.add_zero, countUpTo_all hmax]
    rfl
  | cons body bodies ih =>
    rw [List.flatMap_cons, List.length_append, slice_add] at hm
    obtain ⟨hfirst, hrest⟩ := List.append_inj hm (length_slice _ _ _)
    rw [length_frame] at hrest
    rw [List.length_cons] at hcount hfuel
    have hend : p + ((body :: bodies).flatMap frame).length =
        p + (19 + body.length) + (bodies.flatMap frame).length := by
      rw [List.flatMap_cons, List.length_append, length_frame]
      omega
    have htotal : i + (body :: bodies).length = i + 1 + bodies.length := by
      rw [List.length_cons]
      omega
    rw [hend, htotal]
    by_cases hbelow : env.msgMax = 0 ∨ i < env.msgMax.toNat
    · have hround := @messageRound_framed σ env m
        (p + (19 + body.length) + (bodies.flatMap frame).length) p i body parse pn s
        (hsize body List.mem_cons_self) hfirst (by omega) (by omega) hbelow
      obtain ⟨fuel, rfl⟩ : ∃ k, fuel = k + 1 := ⟨fuel - 1, by omega⟩
      have htail (s' : σ) := @ih (p + (19 + body.length)) (i + 1) s'
        (fun b hb => hsize b (List.mem_cons_of_mem _ hb)) hrest (by omega) hbelow fuel (by omega)
      rw [loop_bind hround, framedAt, takenFrom_cons, List.foldlM_append]
      simp only [htail, bind_assoc]
      split_ifs
      · rw [List.foldlM_cons]
        simp only [List.foldlM_nil, bind_pure]
      · rfl
    · have hzero : env.msgMax ≠ 0 := fun e => hbelow (.inl e)
      have hi : i = env.msgMax.toNat := by
        have hle := hmax.resolve_left hzero
        have hge : ¬ i < env.msgMax.toNat := fun h => hbelow (.inr h)
        omega
      have hstop := @messageRound_stop σ env
        (p + (19 + body.length) + (bodies.flatMap frame).length) p (UInt32.ofNat i) parse m pn s
        fun htest => hbelow ((below_max (by omega)).mp htest.2)
      rw [loop_done hstop, takenFrom_beyond hzero (by omega), countUpTo_max hzero (by omega), hi]
      rfl

end

def Message.body (msg : Message) : List UInt8 := slice msg.mem msg.p msg.length.toNat

/-- A `parse_update` that keeps a record of its calls. -/
def recordMessage (calls : List Message) (msg : Message) : Exec (List Message) :=
  .ok (calls ++ [msg])

theorem foldlM_recordMessage (msgs calls : List Message) :
    msgs.foldlM recordMessage calls = .ok (calls ++ msgs) := by
  have hrun := @foldlM_record Halt Message Message id recordMessage (fun _ _ => rfl) msgs calls
  rwa [List.map_id] at hrun

/-- Any `parse_update` gets the calls that were recorded. -/
theorem loop_recorded {env : Env} {m : Mem} {pn : Fin npeers} {limit fuel ptr : Nat}
    {msgCount n : UInt32} {calls calls' : List Message}
    (h : loop .loop (messageRound env recordMessage m pn limit) fuel (ptr, msgCount, calls) =
      .ok (n, calls')) :
    ∃ more, calls' = calls ++ more ∧
      ∀ (σ : Type) (parse : σ → Message → Exec σ) (s : σ),
        loop .loop (messageRound env parse m pn limit) fuel (ptr, msgCount, s) =
          more.foldlM parse s >>= fun s => .ok (n, s) := by
  induction fuel generalizing ptr msgCount calls with
  | zero => cases h
  | succ fuel ih =>
    by_cases htest : ptr < limit ∧ (env.msgMax = 0 ∨ msgCount.toUInt64 < env.msgMax)
    · cases hround : messageRound env recordMessage m pn limit (ptr, msgCount, calls) with
      | error halt =>
        rw [loop_error hround] at h
        cases h
      | ok out =>
        rw [messageRound, if_pos htest, assert_bind_ok] at hround
        obtain ⟨hmarker, hround⟩ := hround
        rw [assert_bind_ok] at hround
        have htype := hround.1.symm
        rw [loop_bind (messageRound_taken recordMessage pn calls htest hmarker htype),
          takeMessageWith] at h
        by_cases htake : getw16 m (ptr + 16) > 23 ∧ env.spare ≤ msgCount
        · rw [if_pos htake] at h
          obtain ⟨more, rfl, hmore⟩ := ih h
          refine ⟨_ :: more, List.append_assoc _ _ _, ?_⟩
          intro σ parse s
          rw [loop_bind (messageRound_taken parse pn s htest hmarker htype), takeMessageWith,
            if_pos htake, List.foldlM_cons, bind_assoc]
          simp only [hmore]
        · rw [if_neg htake] at h
          obtain ⟨more, hcalls, hmore⟩ := ih h
          refine ⟨more, hcalls, ?_⟩
          intro σ parse s
          rw [loop_bind (messageRound_taken parse pn s htest hmarker htype), takeMessageWith,
            if_neg htake, ← hmore]
          rfl
    · rw [loop_done (messageRound_stop recordMessage m pn calls htest)] at h
      cases h
      refine ⟨[], (List.append_nil _).symm, ?_⟩
      intro σ parse s
      rw [loop_done (messageRound_stop parse m pn s htest)]
      rfl

theorem bufParsePeerWith_recorded {σ : Type} {env : Env} {m : Mem} {pn : Fin npeers} {fuel : Nat}
    {buf : Buf} {n : UInt32} {calls : List Message}
    (h : bufParsePeerWith env recordMessage m pn fuel [] buf = .ok (n, calls))
    (parse : σ → Message → Exec σ) (s : σ) :
    bufParsePeerWith env parse m pn fuel s buf = do
      let s ← calls.foldlM parse s
      return (n, s) := by
  obtain ⟨more, hcalls, hmore⟩ := loop_recorded h
  rw [List.nil_append] at hcalls
  rw [hcalls]
  exact hmore σ parse s

def takenBodies (env : Env) (bodies : List (List UInt8)) : List (List UInt8) :=
  (bodies.zipIdx.filter fun x =>
    env.spare.toNat ≤ x.2 ∧ (env.msgMax = 0 ∨ x.2 < env.msgMax.toNat) ∧
      23 < (frame x.1).length).map Prod.fst

theorem body_takenFrom (env : Env) (pn : Fin npeers) {m : Mem} {p i : Nat}
    {bodies : List (List UInt8)} (hsize : ∀ body ∈ bodies, body.length ≤ 65516)
    (hm : slice m p (bodies.flatMap frame).length = bodies.flatMap frame) :
    (takenFrom env i (framedAt pn m p bodies)).map Message.body =
      ((bodies.zipIdx i).filter fun x =>
        env.spare.toNat ≤ x.2 ∧ (env.msgMax = 0 ∨ x.2 < env.msgMax.toNat) ∧
          23 < (frame x.1).length).map Prod.fst := by
  induction bodies generalizing p i with
  | nil => rfl
  | cons body bodies ih =>
    rw [List.flatMap_cons, List.length_append, slice_add] at hm
    obtain ⟨hfirst, hrest⟩ := List.append_inj hm (length_slice _ _ _)
    have hbody := hsize body List.mem_cons_self
    obtain ⟨_, _, _, hbytes⟩ := frame_fields hbody hfirst
    rw [length_frame] at hrest
    have hlen : (UInt16.ofNat body.length).toNat = body.length := by
      rw [UInt16.toNat_ofNat']
      omega
    have htail := ih (fun b hb => hsize b (List.mem_cons_of_mem _ hb)) hrest (i := i + 1)
    have hsame : Message.body ⟨pn, m, p + 19, UInt16.ofNat body.length⟩ = body := by
      simp only [Message.body, hlen, hbytes]
    rw [framedAt, takenFrom_cons, List.map_append, htail, List.zipIdx_cons, List.filter_cons]
    simp only [Taken, hlen, length_frame, decide_eq_true_eq]
    split_ifs
    · rw [List.map_cons, hsame]
      rfl
    · rfl

/-- Any list of messages: the header checks pass, and `parse_update` is called for each message
that is neither spared nor beyond the limit nor too short, in turn and on its body. -/
theorem messages_framed (env : Env) (pn : Fin npeers) (m : Mem) (base fuel : Nat)
    (bodies : List (List UInt8)) (hcount : bodies.length < 2 ^ 31)
    (hsize : ∀ body ∈ bodies, (frame body).length ≤ 65535)
    (hm : slice m base (bodies.flatMap frame).length = bodies.flatMap frame)
    (hfuel : bodies.length < fuel) :
    (∀ (σ : Type) (parse : σ → Message → Exec σ) (s : σ),
      bufParsePeerWith env parse m pn fuel s ⟨base, ((bodies.flatMap frame).length : Nat)⟩ = do
        let s ← (takenFrom env 0 (framedAt pn m base bodies)).foldlM parse s
        return (UInt32.ofNat (countUpTo env bodies.length), s)) ∧
    bufParsePeerWith env recordMessage m pn fuel [] ⟨base, ((bodies.flatMap frame).length : Nat)⟩ =
      .ok (UInt32.ofNat (countUpTo env bodies.length),
        takenFrom env 0 (framedAt pn m base bodies)) ∧
    (takenFrom env 0 (framedAt pn m base bodies)).map Message.body = takenBodies env bodies ∧
    (UInt32.ofNat (countUpTo env bodies.length)).toNat = countUpTo env bodies.length := by
  have hsize : ∀ body ∈ bodies, body.length ≤ 65516 := by
    intro body hb
    have hle := hsize body hb
    rw [length_frame] at hle
    omega
  have hrun (σ : Type) (parse : σ → Message → Exec σ) (s : σ) :
      bufParsePeerWith env parse m pn fuel s ⟨base, ((bodies.flatMap frame).length : Nat)⟩ = do
        let s ← (takenFrom env 0 (framedAt pn m base bodies)).foldlM parse s
        return (UInt32.ofNat (countUpTo env bodies.length), s) := by
    have h := loop_framed env parse pn 0 s hsize hm (by omega)
      (.inr (Nat.zero_le _)) hfuel
    have hlimit : ((base : Int) + ((bodies.flatMap frame).length : Nat)).toNat =
        base + (bodies.flatMap frame).length := by omega
    rw [Nat.zero_add] at h
    rw [bufParsePeerWith, hlimit]
    exact h
  refine ⟨hrun, ?_, body_takenFrom env pn hsize hm, ?_⟩
  · rw [hrun, foldlM_recordMessage]
    rfl
  · have hle : countUpTo env bodies.length ≤ bodies.length := by
      rw [countUpTo]
      split_ifs
      · exact Nat.le_refl _
      · exact Nat.min_le_left _ _
    rw [UInt32.toNat_ofNat', Nat.mod_eq_of_lt (by omega)]

/-- The second and the third of four messages; the third one carries nothing, and its body ends
like the beginning of another message. -/
theorem messages_framed_four :
    ∃ calls, bufParsePeerWith { plainEnv true with spare := 1, msgMax := 3 } recordMessage
        (bytesMem ([[1, 2, 3, 4, 5], List.replicate 19 0xff, [0xff, 0xff], [5, 6, 7, 8, 9]].flatMap
          frame)) 0 5 [] ⟨0, 107⟩ = .ok (3, calls) ∧
      calls.map Message.body = [List.replicate 19 0xff] := by
  have h := messages_framed { plainEnv true with spare := 1, msgMax := 3 } 0
    (bytesMem ([[1, 2, 3, 4, 5], List.replicate 19 0xff, [0xff, 0xff], [5, 6, 7, 8, 9]].flatMap
      frame)) 0 5 [[1, 2, 3, 4, 5], List.replicate 19 0xff, [0xff, 0xff], [5, 6, 7, 8, 9]]
    (by decide) (by decide) (slice_bytesMem _) (by decide)
  exact ⟨_, h.2.1, h.2.2.1.trans (by decide)⟩

end FastParse
