import CloudSync.Accounts.SignupExact
import CloudSync.State.Storage
import CloudSync.Wire

/-!
# Which requests a session acts on

`converse` is a session over a list of requests instead of a connection.  A
client who sends whole requests is served so (`handleClient_encoded`).  In
general the list is that of the complete frames, followed by the bytes behind
them if there are any: `recv` returns a short count at the end of the stream, and
`handle_client` tests only that it is positive.  The last request is then a
truncated one with zeros for what is missing.

The session is what the complete frames alone make it exactly when nothing comes
of the truncated request (`handleClient_eq_iff`).
-/

namespace CloudSync

open CText Framing

/-! ## Encoding -/

theorem leInt_intBytes {x : ℤ} (hx : InInt x) : leInt (intBytes x) = x := by
  have hnonneg : 0 ≤ x % 2 ^ 32 := Int.emod_nonneg x (by norm_num)
  have hlt : x % 2 ^ 32 < 2 ^ 32 := Int.emod_lt_of_pos x (by norm_num)
  obtain ⟨u, hu⟩ := Int.eq_ofNat_of_zero_le hnonneg
  have hdigits : Nat.ofDigits 256 ((intBytes x).map UInt8.toNat) = u := by
    unfold intBytes
    simp only [hu, Int.toNat_natCast, List.map_cons, List.map_nil, UInt8.toNat_ofNat',
      Nat.ofDigits_cons, Nat.ofDigits_nil]
    omega
  calc
    leInt (intBytes x) = Int.bmod (x % (2 ^ 32 : ℕ)) (2 ^ 32) := by
      unfold leInt int32
      rw [hdigits, ← hu]
      norm_num
    _ = int32 x := Int.emod_bmod x (2 ^ 32)
    _ = x := int32_of_range hx

/-- The arrays of a request have the lengths of their fields. -/
structure WellSized (req : ClientRequest) : Prop where
  operation : InInt req.operation
  username : req.username.length = maxUsername
  password : req.password.length = maxPassword
  filename : req.filename.length = maxFilename

theorem intBytes_length (x : ℤ) : (intBytes x).length = 4 := rfl

theorem encodeRequest_length {req : ClientRequest} (h : WellSized req) :
    (encodeRequest req).length = requestSize := by
  simp only [encodeRequest, List.length_append, intBytes_length, h.username, h.password,
    h.filename, req.data_length]
  unfold requestSize
  omega

/-- The field between what comes before it and what comes after. -/
theorem fieldAt_append {before part after : Bytes} {offset size : ℕ}
    (hbefore : before.length = offset) (hpart : part.length = size) :
    fieldAt (before ++ (part ++ after)) offset size = part := by
  unfold fieldAt
  rw [List.append_assoc, List.append_assoc, List.drop_left' hbefore, List.take_left' hpart]

/-- A request arrives as it was sent. -/
theorem requestOf_encodeRequest {req : ClientRequest} (h : WellSized req) :
    requestOf (encodeRequest req) = req := by
  have hop := intBytes_length req.operation
  have hsize := intBytes_length req.dataSize
  have hu := h.username
  have hp := h.password
  have hf := h.filename
  have hdata := req.data_length
  unfold maxUsername at hu
  unfold maxPassword at hp
  unfold maxFilename at hf
  have hoperation : fieldAt (encodeRequest req) 0 4 = intBytes req.operation :=
    @fieldAt_append [] _ _ 0 4 rfl hop
  have husername : fieldAt (encodeRequest req) 4 maxUsername = req.username :=
    fieldAt_append hop h.username
  have hpassword : fieldAt (encodeRequest req) 36 maxPassword = req.password := by
    unfold encodeRequest
    rw [← List.append_assoc]
    apply fieldAt_append _ h.password
    simp only [List.length_append]
    omega
  have hfilename : fieldAt (encodeRequest req) 68 maxFilename = req.filename := by
    unfold encodeRequest
    rw [← List.append_assoc, ← List.append_assoc]
    apply fieldAt_append _ h.filename
    simp only [List.length_append]
    omega
  have hdataSize : fieldAt (encodeRequest req) 132 4 = intBytes req.dataSize := by
    unfold encodeRequest
    rw [← List.append_assoc, ← List.append_assoc, ← List.append_assoc]
    apply fieldAt_append _ hsize
    simp only [List.length_append]
    omega
  have hpayload : fieldAt (encodeRequest req) 136 maxFileSize = req.data := by
    have hbefore : (intBytes req.operation ++ req.username ++ req.password ++ req.filename ++
        intBytes req.dataSize).length = 136 := by
      simp only [List.length_append]
      omega
    have hlast := @fieldAt_append _ _ [] _ _ hbefore hdata
    rw [List.append_nil] at hlast
    unfold encodeRequest
    rw [← List.append_assoc, ← List.append_assoc, ← List.append_assoc, ← List.append_assoc]
    exact hlast
  have hoperationValue := leInt_intBytes h.operation
  have hsizeValue := leInt_intBytes req.dataSize_range
  unfold requestOf
  simp only [hoperation, husername, hpassword, hfilename, hdataSize, hpayload, hoperationValue,
    hsizeValue]

/-! ## The session over a list of requests -/

/-- The command loop over the requests. -/
def runCommands (user : UserInfo) (accounts : AuthState) :
    (ℕ → Turn) → List ClientRequest → World → Conversation
  | _, [], world => ⟨[], [], accounts, world⟩
  | turns, req :: rest, world =>
      if Operation.ofCode req.operation = .exit then ⟨[req], [goodbye user], accounts, world⟩
      else
        let served := handleRequest (turns 0).env user (turns 0).requestId req
          ((turns 0).others world)
        (runCommands user accounts (fun k => turns (k + 1)) rest served.2).after req served.1

/-- The session over the requests. -/
def converse (accounts : AuthState) (canAppend : Bool) (turns : ℕ → Turn) (world : World) :
    List ClientRequest → Conversation
  | [] => ⟨[], [expectedLogin], accounts, world⟩
  | req :: rest =>
      if Opens req then
        let begun := beginSession accounts canAppend req
        match begun.1.2 with
        | none => ⟨[req], [begun.1.1], begun.2, world⟩
        | some user => (runCommands user begun.2 turns rest world).after req begun.1.1
      else ⟨[], [expectedLogin], accounts, world⟩

/-- The requests on a stream: those of the complete frames. -/
def completeRequests (stream : Bytes) : List ClientRequest :=
  (frames requestSize stream).map requestOf

variable {accounts : AuthState} {canAppend : Bool} {turns : ℕ → Turn} {world : World}
  {user : UserInfo}

theorem converse_not_opening {first : ClientRequest} (h : ¬ Opens first)
    (rest : List ClientRequest) : converse accounts canAppend turns world (first :: rest) =
      ⟨[], [expectedLogin], accounts, world⟩ := if_neg h

theorem converse_refused {first : ClientRequest} (hopens : Opens first)
    (hrefused : (beginSession accounts canAppend first).1.2 = none) (rest : List ClientRequest) :
    converse accounts canAppend turns world (first :: rest) =
      ⟨[first], [(beginSession accounts canAppend first).1.1],
        (beginSession accounts canAppend first).2, world⟩ := by
  unfold converse
  simp only [if_pos hopens, hrefused]

theorem converse_accepted {first : ClientRequest} (hopens : Opens first)
    (huser : (beginSession accounts canAppend first).1.2 = some user)
    (rest : List ClientRequest) :
    converse accounts canAppend turns world (first :: rest) =
      (runCommands user (beginSession accounts canAppend first).2 turns rest world).after first
        (beginSession accounts canAppend first).1.1 := by
  unfold converse
  simp only [if_pos hopens, huser]

/-- A request that does not open a session is refused. -/
theorem refused_of_not_opens {first : ClientRequest} (h : ¬ Opens first) :
    (beginSession accounts canAppend first).1.2 = none := by
  unfold Opens at h
  unfold beginSession
  split
  · next hsignup => exact absurd (Or.inr hsignup) h
  · next hlogin => exact absurd (Or.inl hlogin) h
  · rfl

theorem requestSize_pos : 0 < requestSize := by
  unfold requestSize
  omega

/-- The loop over a connection is the loop over what the connection hands it. -/
theorem commandLoop_eq {fuel : ℕ} {packets : List Bytes} (hfuel : packets.flatten.length < fuel) :
    commandLoop user accounts fuel turns packets world =
      runCommands user accounts turns
        ((received requestSize packets.flatten).map requestOf) world := by
  induction fuel generalizing turns packets world with
  | zero => exact absurd hfuel (Nat.not_lt_zero _)
  | succ fuel ih =>
      have hbytes := recvAll_fst requestSize packets
      have hpackets := recvAll_snd requestSize packets
      have hpos := requestSize_pos
      unfold commandLoop
      by_cases hnil : packets.flatten = []
      · rw [hnil, received_nil]
        simp only [hbytes, hnil, List.take_nil, List.length_nil, le_refl, if_true, List.map_nil]
        rfl
      · have hlength : 0 < packets.flatten.length := List.length_pos_iff.mpr hnil
        have hsome : ¬ (recvAll requestSize packets).1.length ≤ 0 := by
          rw [hbytes, List.length_take]
          omega
        rw [received_step hpos hnil, List.map_cons]
        simp only [hsome, if_false]
        unfold runCommands
        rw [hbytes]
        split
        · rfl
        · rw [ih, hpackets]
          rw [hpackets, List.length_drop]
          omega

/-- A session is the session over what the connection hands it. -/
theorem handleClient_eq (packets : List Bytes) :
    handleClient accounts canAppend turns packets world =
      converse accounts canAppend turns world
        ((received requestSize packets.flatten).map requestOf) := by
  have hbytes := recvAll_fst requestSize packets
  have hpackets := recvAll_snd requestSize packets
  have hpos := requestSize_pos
  unfold handleClient
  by_cases hnil : packets.flatten = []
  · rw [hnil, received_nil]
    simp only [hbytes, hnil, List.take_nil, List.length_nil, le_refl, true_or, if_true,
      List.map_nil]
    rfl
  · have hlength : 0 < packets.flatten.length := List.length_pos_iff.mpr hnil
    have hsome : ¬ (recvAll requestSize packets).1.length ≤ 0 := by
      rw [hbytes, List.length_take]
      omega
    rw [received_step hpos hnil, List.map_cons]
    simp only [hsome, false_or]
    rw [hbytes]
    by_cases hopens : Opens (requestOf (packets.flatten.take requestSize))
    · rw [if_neg (not_not.mpr hopens)]
      cases huser : (beginSession accounts canAppend
        (requestOf (packets.flatten.take requestSize))).1.2 with
      | none => rw [converse_refused hopens huser]
      | some user =>
          rw [converse_accepted hopens huser, ← hpackets,
            ← commandLoop_eq (Nat.lt_succ_self (recvAll requestSize packets).2.flatten.length)]
    · rw [if_pos hopens, converse_not_opening hopens]

/-- Whole requests sent in any packets are served one by one. -/
theorem handleClient_encoded {packets : List Bytes} {reqs : List ClientRequest}
    (hreqs : ∀ req ∈ reqs, WellSized req)
    (hpackets : packets.flatten = (reqs.map encodeRequest).flatten) :
    handleClient accounts canAppend turns packets world =
      converse accounts canAppend turns world reqs := by
  have hparts : ∀ p ∈ reqs.map encodeRequest, p.length = requestSize := by
    intro p hp
    obtain ⟨req, hreq, rfl⟩ := List.mem_map.mp hp
    exact encodeRequest_length (hreqs req hreq)
  have hdecoded : (reqs.map encodeRequest).map requestOf = reqs := by
    rw [List.map_map]
    conv_rhs => rw [← List.map_id reqs]
    apply List.map_congr_left
    intro req hreq
    exact requestOf_encodeRequest (hreqs req hreq)
  obtain ⟨hframes, hfragment⟩ := frames_flatten requestSize_pos hparts
    (show ([] : Bytes).length < requestSize from requestSize_pos)
  rw [List.append_nil] at hframes hfragment
  rw [handleClient_eq, hpackets, received, hframes, hfragment, if_pos rfl, List.append_nil,
    hdecoded]

/-! ## The bytes behind the last complete frame -/

/-- The session does not outlast the requests: the first one is refused, or a
later one is `OP_EXIT`. -/
def SessionOver (accounts : AuthState) (canAppend : Bool) : List ClientRequest → Prop
  | [] => False
  | first :: rest =>
      (beginSession accounts canAppend first).1.2 = none ∨
        ∃ req ∈ rest, Operation.ofCode req.operation = .exit

/-- Nothing comes of the bytes behind the last complete frame: there are none, or
the session is over before them, or they are all there is and begin neither with
`OP_LOGIN` nor with `OP_SIGNUP`. -/
def FragmentIgnored (accounts : AuthState) (canAppend : Bool) (stream : Bytes) : Prop :=
  fragment requestSize stream = [] ∨
    SessionOver accounts canAppend (completeRequests stream) ∨
    (completeRequests stream = [] ∧ ¬ Opens (requestOf (fragment requestSize stream)))

theorem runCommands_append {reqs : List ClientRequest} (last : ClientRequest)
    (hexit : ∃ req ∈ reqs, Operation.ofCode req.operation = .exit) :
    runCommands user accounts turns (reqs ++ [last]) world =
      runCommands user accounts turns reqs world := by
  induction reqs generalizing turns world with
  | nil => simp at hexit
  | cons req rest ih =>
      rw [List.cons_append]
      unfold runCommands
      by_cases hreq : Operation.ofCode req.operation = .exit
      · rw [if_pos hreq, if_pos hreq]
      · have hrest : ∃ req ∈ rest, Operation.ofCode req.operation = .exit := by
          obtain ⟨exit, hmem, hop⟩ := hexit
          rcases List.mem_cons.mp hmem with rfl | hmem
          · exact absurd hop hreq
          · exact ⟨exit, hmem, hop⟩
        rw [if_neg hreq, if_neg hreq]
        show Conversation.after _ _ (runCommands _ _ _ (rest ++ [last]) _) = _
        rw [ih hrest]

/-- The loop acts on every request if none before the last is `OP_EXIT`. -/
theorem requests_runCommands {reqs : List ClientRequest}
    (hexit : ∀ req ∈ reqs.dropLast, Operation.ofCode req.operation ≠ .exit) :
    (runCommands user accounts turns reqs world).requests = reqs := by
  induction reqs generalizing turns world with
  | nil => rfl
  | cons req rest ih =>
      unfold runCommands
      by_cases hreq : Operation.ofCode req.operation = .exit
      · rw [if_pos hreq]
        cases rest with
        | nil => rfl
        | cons next rest => exact absurd hreq (hexit req (List.mem_cons_self ..))
      · rw [if_neg hreq]
        show req :: (runCommands _ _ _ _ _).requests = _
        rw [ih]
        intro r hr
        cases rest with
        | nil => simp at hr
        | cons next rest => exact hexit r (List.mem_cons_of_mem _ hr)

/-- One more request makes a difference unless the session is over before it. -/
theorem converse_append_iff (reqs : List ClientRequest) (last : ClientRequest) :
    converse accounts canAppend turns world (reqs ++ [last]) =
        converse accounts canAppend turns world reqs ↔
      SessionOver accounts canAppend reqs ∨ (reqs = [] ∧ ¬ Opens last) := by
  cases reqs with
  | nil =>
      rw [List.nil_append]
      by_cases hopens : Opens last
      · have hacted : (converse accounts canAppend turns world [last]).requests = [last] := by
          cases huser : (beginSession accounts canAppend last).1.2 with
          | none => rw [converse_refused hopens huser]
          | some user =>
              rw [converse_accepted hopens huser]
              rfl
        apply iff_of_false
        · intro heq
          rw [heq] at hacted
          simp [converse] at hacted
        · rintro (hends | ⟨-, hnot⟩)
          · exact hends
          · exact hnot hopens
      · rw [converse_not_opening hopens]
        exact iff_of_true rfl (Or.inr ⟨rfl, hopens⟩)
  | cons first rest =>
      rw [List.cons_append]
      by_cases hopens : Opens first
      · cases huser : (beginSession accounts canAppend first).1.2 with
        | none =>
            rw [converse_refused hopens huser, converse_refused hopens huser]
            exact iff_of_true rfl (Or.inl (Or.inl huser))
        | some user =>
            rw [converse_accepted hopens huser, converse_accepted hopens huser]
            by_cases hexit : ∃ req ∈ rest, Operation.ofCode req.operation = .exit
            · rw [runCommands_append last hexit]
              exact iff_of_true rfl (Or.inl (Or.inr hexit))
            · have hnone : ∀ req ∈ rest, Operation.ofCode req.operation ≠ .exit := by
                intro req hreq hop
                exact hexit ⟨req, hreq, hop⟩
              apply iff_of_false
              · intro heq
                have hlong : (runCommands user (beginSession accounts canAppend first).2 turns
                    (rest ++ [last]) world).requests = rest ++ [last] := by
                  apply requests_runCommands
                  rwa [List.dropLast_concat]
                have hshort : (runCommands user (beginSession accounts canAppend first).2 turns
                    rest world).requests = rest := by
                  apply requests_runCommands
                  intro req hreq
                  exact hnone req (List.dropLast_subset rest hreq)
                have hrequests := congrArg Conversation.requests heq
                simp only [Conversation.after, hlong, hshort, List.cons.injEq, true_and] at hrequests
                exact absurd hrequests (by simp)
              · simp [SessionOver, huser, hexit]
      · rw [converse_not_opening hopens, converse_not_opening hopens]
        exact iff_of_true rfl (Or.inl (Or.inl (refused_of_not_opens hopens)))

/-- A session is what the complete frames of the stream make it if and only if
nothing comes of the bytes behind them. -/
theorem handleClient_eq_iff (accounts : AuthState) (canAppend : Bool) (turns : ℕ → Turn)
    (packets : List Bytes) (world : World) :
    handleClient accounts canAppend turns packets world =
        converse accounts canAppend turns world (completeRequests packets.flatten) ↔
      FragmentIgnored accounts canAppend packets.flatten := by
  rw [handleClient_eq, received, List.map_append]
  unfold FragmentIgnored
  by_cases hfragment : fragment requestSize packets.flatten = []
  · rw [if_pos hfragment, List.map_nil, List.append_nil]
    exact iff_of_true rfl (Or.inl hfragment)
  · rw [if_neg hfragment]
    have hlast := @converse_append_iff accounts canAppend turns world
      (completeRequests packets.flatten) (requestOf (fragment requestSize packets.flatten))
    simp only [hfragment, false_or]
    exact hlast

/-- A request of the administrator of a fresh installation, about the file `a`. -/
def adminRequest (operation : ℤ) (data : Bytes) (hdata : data.length ≤ maxFileSize) :
    ClientRequest where
  operation := operation
  username := padTo maxUsername (text "admin")
  password := padTo maxPassword (text "admin123")
  filename := padTo maxFilename (text "a")
  dataSize := data.length
  data := padTo maxFileSize data
  data_length := padTo_length hdata
  dataSize_range := by
    unfold maxFileSize at hdata
    omega

/-- A login, and an upload that breaks off where its three bytes of data begin. -/
def brokenUpload : Bytes :=
  encodeRequest (adminRequest 0 [] (by decide)) ++
    (encodeRequest (adminRequest 1 (text "new") (by decide))).take 136

/-- The state in which `a` holds `abc`. -/
def storedWorld : World :=
  (serve (fun _ => Env.calm 0) (sampleTask .upload 1 roleAdmin "abc") freshWorld).2

def calmTurns : ℕ → Turn := fun _ => ⟨fun _ => Env.calm 0, 100, id⟩

/-- The broken upload is carried out, with three zeros for its data. -/
theorem broken_upload :
    handleClient shippedUsers true calmTurns [brokenUpload] storedWorld ≠
        converse shippedUsers true calmTurns storedWorld (completeRequests brokenUpload) ∧
      content storedWorld.tree (text "a") = some (text "abc") ∧
      content (handleClient shippedUsers true calmTurns [brokenUpload] storedWorld).world.tree
        (text "a") = some [0, 0, 0] := by
  refine ⟨?_, by decide +kernel, by decide +kernel⟩
  intro heq
  have hlength := congrArg (fun c => c.requests.length) heq
  exact absurd hlength (by decide +kernel)

end CloudSync
