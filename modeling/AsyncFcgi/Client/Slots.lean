import AsyncFcgi.Client.Step

/-!
# Who owns a slot (`src/client/connection.rs`)

A request in the table belongs to the call of `forward` that inserted it: it holds the permit of
that call, and its key is that of no other call. The permits add up, which bounds the keys, and
so no id is cut off.

* `Slots.step`: every step keeps `Slots`.
* `bodies_own`: a body that is not done has its own request.
* `ids_in_range`: the permits add up, and ids and keys are the same thing.
-/

namespace AsyncFcgi

open Lib

namespace Connection

/-- The calls that have their permit themselves. -/
def holding (self : Connection) : ℕ := self.calls.countP Forward.HoldsPermit

/-- The requests and the calls belong together. -/
structure Slots (max : ℕ) (con : Connection) : Prop where
  open_ : ∀ (j : ℕ) (call : Forward), con.calls[j]? = some call → call.Open
  owns : ∀ (j : ℕ) (call : Forward) (k : ℕ), con.calls[j]? = some call → call.key? = some k →
    ∃ m, con.inner.inner.runningRequests.get? k = some m ∧ m.permit = j ∧ m.aborted = false
  permits : ∀ k m, con.inner.inner.runningRequests.get? k = some m →
    ∃ call, con.calls[m.permit]? = some call ∧ call.HoldsPermit = false
  unique : ∀ k k' m m', con.inner.inner.runningRequests.get? k = some m →
    con.inner.inner.runningRequests.get? k' = some m' → m.permit = m'.permit → k = k'
  count : con.sem + con.holding + con.inner.inner.runningRequests.size = max
  bound : con.inner.inner.runningRequests.entries.length ≤ max

variable {max : ℕ} {self self' : Connection} {j : ℕ} {call call' : Forward}
  {inner : Mutex InnerConnection} {eff : Effects}

theorem slots_connect (maxReqPerCon : UInt16) :
    Slots maxReqPerCon.toNat (connect maxReqPerCon) where
  open_ _ _ h := by simp [connect] at h
  owns _ _ _ h := by simp [connect] at h
  permits _ _ h := by simp [connect, InnerConnection.fresh] at h
  unique _ _ _ _ h := by simp [connect, InnerConnection.fresh] at h
  count := by simp [connect, holding, InnerConnection.fresh, Slab.size, Slab.values, Slab.empty]
  bound := by simp [connect, InnerConnection.fresh, Slab.empty]

/-- The two permits of two calls for one request are the same. -/
theorem Slots.eq_of_key? (h : Slots max self) {i : ℕ} {k : ℕ} (hcall : self.calls[j]? = some call)
    (hcall' : self.calls[i]? = some call') (hk : call.key? = some k) (hk' : call'.key? = some k) :
    i = j := by
  obtain ⟨m, hq, hp, -⟩ := h.owns j call k hcall hk
  obtain ⟨m', hq', hp', -⟩ := h.owns i call' k hcall' hk'
  rw [hq] at hq'
  cases hq'
  exact hp'.symm.trans hp

theorem holding_set (hcall : self.calls[j]? = some call) (call' : Forward) :
    (self.calls.set j call').countP Forward.HoldsPermit + (if call.HoldsPermit then 1 else 0) =
      self.holding + if call'.HoldsPermit then 1 else 0 := by
  obtain ⟨hlt, hget⟩ := List.getElem?_eq_some_iff.mp hcall
  have hpos : call.HoldsPermit = true → 0 < self.calls.countP Forward.HoldsPermit := fun hh =>
    List.countP_pos_iff.mpr ⟨call, List.mem_of_getElem? hcall, hh⟩
  rw [List.countP_set hlt, hget, holding]
  split
  · have := hpos ‹_›
    omega
  · omega

/-- A call that has its permit itself has no request. -/
theorem Slots.fresh (h : Slots max self) {k : ℕ} {m : FCGIRequest}
    (hcall : self.calls[j]? = some call) (hholds : call.HoldsPermit = true)
    (hq : self.inner.inner.runningRequests.get? k = some m) : m.permit ≠ j := by
  intro hpj
  obtain ⟨c, hc, hno⟩ := h.permits k m hq
  rw [hpj, hcall] at hc
  cases hc
  rw [hholds] at hno
  cases hno

/-- The body whose bytes are to be pushed back is not done. -/
theorem Slots.putting_key (h : Slots max self) {rid : UInt16} {upload : Upload} {body : FCGIBody}
    {bodydata : Bytes} {rheaders : HeaderMap}
    (hcall : self.calls[j]? =
      some (.exchanging rid upload (some (.putting body bodydata rheaders)))) :
    (Forward.exchanging rid upload (some (.putting body bodydata rheaders))).key? =
      some body.rid := by
  have hopen := h.open_ j _ hcall
  have hbody : body = ⟨rid.toNat - 1, false, false⟩ := hopen.2
  rw [(hopen.key? rfl).2, hbody]

/-- A call goes on, and the table changes: entries of other calls stay if they are not aborted,
and a new entry is that of the call. -/
theorem Slots.moves (h : Slots max self) (hcall : self.calls[j]? = some call)
    (hholds : call'.HoldsPermit = true → call.HoldsPermit = true) (hopen : call.Open → call'.Open)
    (hback : ∀ k m', inner.inner.runningRequests.get? k = some m' →
      (m'.permit = j ∧ call.HoldsPermit = true ∧ call'.key? = some k) ∨
        ∃ m, self.inner.inner.runningRequests.get? k = some m ∧ m.permit = m'.permit)
    (hkept : ∀ k m, call.key? ≠ some k → self.inner.inner.runningRequests.get? k = some m →
      m.aborted = false →
      ∃ m', inner.inner.runningRequests.get? k = some m' ∧ m'.permit = m.permit ∧
        m'.aborted = false)
    (hkey : ∀ k, call'.key? = some k → ∃ m, inner.inner.runningRequests.get? k = some m ∧
      m.permit = j ∧ m.aborted = false)
    (hcount : eff.released.length + (if call'.HoldsPermit then 1 else 0) +
        inner.inner.runningRequests.size =
      (if call.HoldsPermit then 1 else 0) + self.inner.inner.runningRequests.size)
    (hbound : inner.inner.runningRequests.entries.length ≤ max) :
    Slots max (self.move j call' inner eff) := by
  obtain ⟨hlt, -⟩ := List.getElem?_eq_some_iff.mp hcall
  have hset : ∀ i, (self.calls.set j call')[i]? = if i = j then some call' else self.calls[i]? := by
    intro i
    rw [List.getElem?_set]
    by_cases hi : j = i
    · subst hi
      simp [hlt]
    · rw [if_neg hi, if_neg (Ne.symm hi)]
  refine ⟨fun i c hc => ?_, fun i c k hc hk => ?_, fun k m' hq => ?_,
    fun k k' m m' hq hq' hp => ?_, ?_, hbound⟩
  · replace hc : (self.calls.set j call')[i]? = some c := hc
    rw [hset] at hc
    split at hc
    · cases hc
      exact hopen (h.open_ j call hcall)
    · exact h.open_ i c hc
  · replace hc : (self.calls.set j call')[i]? = some c := hc
    rw [hset] at hc
    split at hc
    · rename_i hi
      cases hc
      exact hi ▸ hkey k hk
    · rename_i hi
      obtain ⟨m, hq, hp, ha⟩ := h.owns i c k hc hk
      have hne : call.key? ≠ some k := fun hk' => hi (h.eq_of_key? hcall hc hk' hk)
      obtain ⟨m', hq', hp', ha'⟩ := hkept k m hne hq ha
      exact ⟨m', hq', hp'.trans hp, ha'⟩
  · show ∃ c, (self.calls.set j call')[m'.permit]? = some c ∧ _
    rw [hset]
    rcases hback k m' hq with ⟨hp, -, hk⟩ | ⟨m, hq₀, hp⟩
    · rw [if_pos hp]
      exact ⟨call', rfl, Forward.holdsPermit_of_key? hk⟩
    · obtain ⟨c, hc, hno⟩ := h.permits k m hq₀
      rw [hp] at hc
      split
      · rename_i hj
        rw [hj, hcall] at hc
        cases hc
        exact ⟨call', rfl, Bool.eq_false_iff.mpr fun hh => by rw [hholds hh] at hno; cases hno⟩
      · exact ⟨c, hc, hno⟩
  · rcases hback k m hq with ⟨hp₁, hh, hk⟩ | ⟨m₁, hq₁, hp₁⟩ <;>
      rcases hback k' m' hq' with ⟨hp₂, hh', hk'⟩ | ⟨m₂, hq₂, hp₂⟩
    · exact Option.some.inj (hk.symm.trans hk')
    · exact absurd (hp₂.trans (hp.symm.trans hp₁)) (h.fresh hcall hh hq₂)
    · exact absurd (hp₁.trans (hp.trans hp₂)) (h.fresh hcall hh' hq₁)
    · exact h.unique k k' m₁ m₂ hq₁ hq₂ (hp₁.trans (hp.trans hp₂.symm))
  · show self.sem + eff.released.length + (self.calls.set j call').countP Forward.HoldsPermit +
      inner.inner.runningRequests.size = max
    have := holding_set hcall call'
    have := h.count
    omega

/-- The history is not looked at. -/
theorem Slots.history (h : Slots max self) (log : List Record) (reader : Option ℕ) :
    Slots max { self with log, reader } :=
  ⟨h.open_, h.owns, h.permits, h.unique, h.count, h.bound⟩

theorem Slots.hear (h : Slots max self) (j : ℕ) (sock : SocketRead) (cx : Waker) :
    Slots max (self.hear j sock cx) :=
  h.history _ _

/-- The call goes on while records are processed. -/
theorem Slots.driven (h : Slots max self) (hcall : self.calls[j]? = some call)
    {recs : List Record} {own : Option ℕ} {t' : Slab FCGIRequest} {eff₁ : Effects}
    (hd : InnerConnection.Driven recs own self.inner.inner.runningRequests t' eff₁)
    (hinner : inner.inner.runningRequests = t') (hown : ∀ k, own = some k → call.key? = some k)
    (hholds : call'.HoldsPermit = true → call.HoldsPermit = true) (hopen : call.Open → call'.Open)
    (hkey : ∀ k, call'.key? = some k → ∃ m, t'.get? k = some m ∧ m.permit = j ∧ m.aborted = false)
    (hcount : eff.released.length + (if call'.HoldsPermit then 1 else 0) =
      (if call.HoldsPermit then 1 else 0) + eff₁.released.length) :
    Slots max (self.move j call' inner eff) := by
  subst hinner
  refine h.moves hcall hholds hopen (fun k m' hq => Or.inr (hd.back k m' hq))
    (fun k m hk hq ha => ?_) hkey ?_ (hd.length.le.trans h.bound)
  · obtain ⟨m', hq', hp', ha'⟩ := hd.kept k m (fun ho => hk (hown k ho)) hq
      (fun hno => by rw [ha] at hno; cases hno.1)
    exact ⟨m', hq', hp', ha'.trans ha⟩
  · have := hd.size
    omega

/-- A `poll_frame` with the lock finds the request of its call. -/
theorem Slots.driven_framed (h : Slots max self) (hcall : self.calls[j]? = some call)
    {body body' : FCGIBody} (hkey : call.key? = some body.rid) {sock : SocketRead} {cx : Waker}
    {r : Poll (Option (Except IoError Unit))} {inner₁ inner₂ : InnerConnection}
    {eff₁ eff₂ : Effects} {res : FramePoll}
    (hresp : self.inner.inner.pollResp sock cx = .ok (r, inner₁, eff₁))
    (hserved : FCGIBody.Served body inner₁ cx res body' inner₂ eff₂) :
    (∃ m, inner₁.runningRequests.get? body.rid = some m ∧ m.permit = j ∧ m.aborted = false) ∧
      InnerConnection.Driven (self.inner.inner.records sock cx) (some body.rid)
        self.inner.inner.runningRequests inner₂.runningRequests (eff₁ ++ eff₂) ∧
      body'.rid = body.rid ∧
      ((body'.done = body.done ∧
          ∃ m, inner₂.runningRequests.get? body.rid = some m ∧ m.permit = j ∧ m.aborted = false) ∨
        (body'.done = true ∧ inner₂.runningRequests.get? body.rid = none ∧
          j ∈ (eff₁ ++ eff₂).released)) := by
  obtain ⟨m₀, hq₀, hp₀, ha₀⟩ := h.owns j call body.rid hcall hkey
  have hdriven := InnerConnection.driven_pollResp hresp
  obtain ⟨m, hq, hp, ha⟩ := hdriven.kept body.rid m₀ nofun hq₀
    (fun hno => by rw [ha₀] at hno; cases hno.1)
  obtain ⟨hdriven', hrid', hcases⟩ := InnerConnection.driven_served hq hserved
  have hall := hdriven.trans hdriven'
  rw [List.append_nil] at hall
  refine ⟨⟨m, hq, hp.trans hp₀, ha.trans ha₀⟩, hall, hrid', ?_⟩
  rcases hcases with ⟨hd', -, m', hq', hp', ha'⟩ | ⟨hd', rfl, hnone⟩
  · exact Or.inl ⟨hd', m', hq', hp'.trans (hp.trans hp₀), ha'.trans (ha.trans ha₀)⟩
  · exact Or.inr ⟨hd', hnone,
      List.mem_append_right _ (List.mem_singleton.mpr (hp.trans hp₀).symm)⟩

/-- The call puts its request into the table. -/
theorem Slots.inserted (h : Slots max self) (hmax : max < 2 ^ 16)
    (hcall : self.calls[j]? = some call) (hholds : call.HoldsPermit = true)
    {recs : List Record} {t' : Slab FCGIRequest}
    (hd : InnerConnection.Driven recs none self.inner.inner.runningRequests t' eff) {key : ℕ}
    (hcan : t'.CanInsert key) (hinner : inner.inner.runningRequests = t'.insertAt key (.new j)) :
    Slots max (self.move j (.sending (ridOf key)) inner eff) := by
  have hpos : 0 < self.holding :=
    List.countP_pos_iff.mpr ⟨call, List.mem_of_getElem? hcall, hholds⟩
  have hlen := Slab.length_insertAt_le hcan (FCGIRequest.new j)
  have hbound : (t'.insertAt key (FCGIRequest.new j)).entries.length ≤ max := by
    have := h.count
    have := h.bound
    have := hd.size
    have := hd.length
    omega
  have hrid : (ridOf key).toNat = key + 1 := by
    rw [ridOf, UInt16.toNat_ofNat']
    omega
  have hkey? : (Forward.sending (ridOf key)).key? = some key := by
    rw [Forward.key?, hrid, Nat.add_sub_cancel]
  refine h.moves hcall nofun (fun _ => ?_) (fun k m' hq => ?_) (fun k m hk hq ha => ?_)
    (fun k hk => ?_) ?_ (hinner ▸ hbound)
  · intro h0
    rw [h0] at hrid
    simp at hrid
  · rw [hinner, Slab.get?_insertAt hcan] at hq
    split at hq
    · rename_i hk
      cases hq
      exact Or.inl ⟨rfl, hholds, hk ▸ hkey?⟩
    · exact Or.inr (hd.back k m' hq)
  · obtain ⟨m', hq', hp', ha'⟩ := hd.kept k m nofun hq (fun hno => by rw [ha] at hno; cases hno.1)
    have hne : k ≠ key := by
      rintro rfl
      rw [Slab.get?_of_canInsert hcan] at hq'
      cases hq'
    exact ⟨m', by rw [hinner, Slab.get?_insertAt hcan, if_neg hne, hq'], hp', ha'.trans ha⟩
  · rw [hkey?] at hk
    cases hk
    exact ⟨.new j, by rw [hinner, Slab.get?_insertAt hcan, if_pos rfl], rfl, rfl⟩
  · have := hd.size
    rw [hinner, Slab.size_insertAt hcan, hholds]
    simp only [Forward.HoldsPermit, if_true, Bool.false_eq_true, if_false]
    omega

/-- One step. -/
theorem Slots.step (hmax : max < 2 ^ 16) {ev : Event} (h : Slots max self)
    (hs : Stepped self ev self' eff) : Slots max self' := by
  have hnone : ∀ {call : Forward} (k : ℕ), (none : Option ℕ) = some k → call.key? = some k :=
    fun k hk => by cases hk
  cases hs with
  | acquired hsem =>
    have hnew : ∀ {i : ℕ} {c : Forward}, (self.calls ++ [.waiting])[i]? = some c →
        self.calls[i]? = some c ∨ c = .waiting := by
      intro i c hc
      rw [List.getElem?_append] at hc
      split at hc
      · exact Or.inl hc
      · exact Or.inr (List.mem_singleton.mp (List.mem_of_getElem? hc))
    refine ⟨fun i c hc => ?_, fun i c k hc hk => ?_, fun k m hq => ?_, h.unique, ?_, h.bound⟩
    · rcases hnew hc with hc | rfl
      · exact h.open_ i c hc
      · trivial
    · rcases hnew hc with hc | rfl
      · exact h.owns i c k hc hk
      · cases hk
    · obtain ⟨c, hc, hno⟩ := h.permits k m hq
      refine ⟨c, ?_, hno⟩
      rw [List.getElem?_append_left (List.getElem?_eq_some_iff.mp hc).1]
      exact hc
    · have := h.count
      simp only [holding, List.countP_append, List.countP_singleton, Forward.HoldsPermit] at this ⊢
      simp only [if_true]
      omega
  | @moved _ j call call' inner _ hcall hmoves _ hinner =>
    refine h.driven hcall (InnerConnection.Driven.refl none _) (by rw [hinner]) hnone
      (fun hh => hmoves.holds ▸ hh) hmoves.open_ (fun k hk => ?_) (by rw [hmoves.holds]; exact Nat.add_comm _ _)
    rcases hmoves.key with rfl | hsame
    · cases hk
    · exact h.owns j call k hcall (hsame ▸ hk)
  | @gaveUp _ j call inner _ hcall hholds _ hinner =>
    exact h.driven hcall (InnerConnection.Driven.refl none _) (by rw [hinner]) hnone
      (fun hh => by cases hh) (fun _ => trivial) (fun k hk => by cases hk) (by rw [hholds]; rfl)
  | @refused j _ _ _ _ _ eff₁ _ hcall hresp hres =>
    refine (h.hear _ _ _).driven hcall (InnerConnection.driven_pollResp hresp) rfl hnone
      (fun hh => by cases hh) (fun _ => trivial) (fun k hk => by cases hk) ?_
    show (eff₁.released ++ [j]).length + 0 = 1 + eff₁.released.length
    rw [List.length_append, List.length_singleton]
    omega
  | dead hcall hresp hres =>
    exact (h.hear _ _ _).driven hcall (InnerConnection.driven_pollResp hresp) rfl hnone
      (fun _ => rfl) (fun _ => trivial) (fun k hk => by cases hk) (Nat.add_comm _ _)
  | alive hcall hresp hres hcan =>
    exact (h.hear _ _ _).inserted hmax hcall rfl (InnerConnection.driven_pollResp hresp) hcan rfl
  | notified hcall =>
    exact h.driven hcall (InnerConnection.driven_notify none _) rfl hnone (fun _ => rfl)
      (fun _ => trivial) (fun k hk => by cases hk) (Nat.add_comm _ _)
  | reconnected hcall hcan =>
    exact (h.history self.log none).inserted hmax hcall rfl (InnerConnection.Driven.refl none _) hcan rfl
  | @framed _ j sock cx call call' body body' _ inner₁ eff₁ _ inner₂ eff₂ _ hcall hpolls hd hfree
      hresp hserved =>
    have hkey := hpolls.key_rid hd
    obtain ⟨⟨m, hq, -⟩, hdriven, hrid', hcases⟩ := h.driven_framed hcall hkey hresp hserved
    refine (h.hear j sock cx).driven hcall hdriven rfl (fun k hk => by rw [hkey, hk])
      (fun hh => by rw [hpolls.holds'] at hh; cases hh) (fun ho => hpolls.open_ ho ?_)
      (fun k hk => ?_) (by rw [hpolls.holds, hpolls.holds']; omega)
    · -- before `forward` returned, no body is done
      by_cases hno : call.rid? = none
      · exact Or.inl hno
      · have hret := hpolls.unreturned ho hno
        right
        cases hserved with
        | vanished hq' => rw [hq] at hq'; cases hq'
        | last _ _ _ hret' => rw [hret] at hret'; cases hret'
        | finished _ _ _ hret' => rw [hret] at hret'; cases hret'
        | _ => rfl
    · rw [hpolls.key', FCGIBody.key?] at hk
      rcases hcases with ⟨hd', m', hq', hp', ha'⟩ | ⟨hd', -⟩
      · rw [hd', hd, if_neg (by decide), hrid'] at hk
        cases hk
        exact ⟨m', hq', hp', ha'⟩
      · rw [hd', if_pos rfl] at hk
        cases hk
  | @putBack j sock cx rid upload body bodydata rheaders mpxs status hcall hfree hq =>
    have hopen := h.open_ j _ hcall
    have hbody : body = ⟨rid.toNat - 1, false, false⟩ := hopen.2
    have hkey := h.putting_key hcall
    obtain ⟨m, hq₀, hp, ha⟩ := h.owns j _ body.rid hcall hkey
    rw [hq] at hq₀
    cases hq₀
    refine h.driven hcall (InnerConnection.Driven.set hq
      { mpxs with buf := mpxs.buf.push bodydata } rfl) rfl (fun k hk => by rw [hkey, hk])
      (fun hh => by cases hh) (fun _ => ⟨hopen.1, by rw [hbody]; rfl⟩) (fun k hk => ?_) rfl
    obtain rfl : body.rid = k := by
      rw [hbody] at hk ⊢
      exact Option.some.inj hk
    refine ⟨{ mpxs with buf := mpxs.buf.push bodydata }, ?_, hp, ha⟩
    rw [Slab.get?_set hq, if_pos rfl]
  | @dropped j call body mpxs hcall hholds _ hkey hfree hq =>
    exact h.driven hcall (InnerConnection.Driven.set hq
      { mpxs with aborted := true, waker := none } rfl) rfl (fun k hk => by rw [hkey, hk])
      (fun hh => by cases hh) (fun _ => trivial) (fun k hk => by cases hk) (by rw [hholds]; rfl)

variable {http : Http} {maxReqPerCon : UInt16} {evs : List Event}

/-- Every reachable state. -/
theorem slots_run (hrun : Runs http maxReqPerCon evs self) : Slots maxReqPerCon.toNat self :=
  Run.inv (slots_connect maxReqPerCon)
    (fun _ _ _ h hs => h.step maxReqPerCon.toNat_lt (next_stepped hs.choose_spec)) hrun

/-! ## Requests of other calls -/

/-- What becomes of the request `m` at `k` in a step to `self'` that processes `recs`: it goes,
with its permit, at its END_REQUEST if it is aborted, and stays otherwise. -/
def Handled (k : ℕ) (m : FCGIRequest) (recs : List Record) (self' : Connection) : Prop :=
  (¬ (m.aborted = true ∧ ∃ rec ∈ recs, InnerConnection.EndOf k rec) ∧
      ∃ m', self'.inner.inner.runningRequests.get? k = some m' ∧ m'.permit = m.permit ∧
        m'.aborted = m.aborted) ∨
    ((m.aborted = true ∧ ∃ rec ∈ recs, InnerConnection.EndOf k rec) ∧ ¬ self'.Has m.permit ∧
      m.permit ∈ self'.released)

theorem Slots.handled_driven (h : Slots max self) {recs : List Record} {own : Option ℕ}
    {t' : Slab FCGIRequest} {eff₁ : Effects}
    (hd : InnerConnection.Driven recs own self.inner.inner.runningRequests t' eff₁) {k : ℕ}
    {m : FCGIRequest} (hown : own ≠ some k)
    (hq : self.inner.inner.runningRequests.get? k = some m)
    (hkeep : ∀ k' m', m'.permit = m.permit →
      (inner.inner.runningRequests.get? k' = some m' ↔ t'.get? k' = some m'))
    (hrel : eff₁.released ⊆ eff.released) :
    Handled k m recs (self.move j call' inner eff) := by
  by_cases hend : m.aborted = true ∧ ∃ rec ∈ recs, InnerConnection.EndOf k rec
  · obtain ⟨hnone, hmem⟩ := hd.freed k m hown hq hend.1 hend.2
    refine Or.inr ⟨hend, ?_, List.mem_append_right _ (hrel hmem)⟩
    rintro ⟨k', m', hq', hp'⟩
    have hq₁ := (hkeep k' m' hp').mp hq'
    obtain ⟨m₀, hq₀, hp₀⟩ := hd.back k' m' hq₁
    obtain rfl := h.unique k' k m₀ m hq₀ hq (hp₀.trans hp')
    rw [hnone] at hq₁
    cases hq₁
  · obtain ⟨m', hm', hp, ha⟩ := hd.kept k m hown hq hend
    exact Or.inl ⟨hend, m', (hkeep k m' hp).mpr hm', hp, ha⟩

/-- A request that was inserted in between is another one. -/
theorem Slots.insertAt_iff (h : Slots max self) (hcall : self.calls[j]? = some call)
    (hholds : call.HoldsPermit = true) {k : ℕ} {m : FCGIRequest}
    (hq : self.inner.inner.runningRequests.get? k = some m) {t : Slab FCGIRequest} {key : ℕ}
    (hcan : t.CanInsert key) (k' : ℕ) (m' : FCGIRequest) (hp : m'.permit = m.permit) :
    (t.insertAt key (.new j)).get? k' = some m' ↔ t.get? k' = some m' := by
  rw [Slab.get?_insertAt hcan]
  split
  · rename_i hk
    subst hk
    rw [Slab.get?_of_canInsert hcan]
    refine iff_of_false (fun hm => ?_) nofun
    cases hm
    exact h.fresh hcall hholds hq hp.symm
  · rfl

/-- The request at `k` while another call makes a step. -/
theorem Slots.handled (h : Slots max self) {ev : Event} (hs : Stepped self ev self' eff) {k : ℕ}
    {m : FCGIRequest} (hq : self.inner.inner.runningRequests.get? k = some m)
    (hother : ev.call? ≠ some m.permit) :
    ∃ recs, self'.log = self.log ++ recs ∧ Handled k m recs self' := by
  have hnot : ∀ {i : ℕ} {c : Forward} {k' : ℕ}, ev.call? = some i → self.calls[i]? = some c →
      c.key? = some k' → (some k' : Option ℕ) ≠ some k := by
    intro i c k' hev hc hk hkk
    cases hkk
    obtain ⟨m₀, hq₀, hp₀, -⟩ := h.owns i c k hc hk
    rw [hq] at hq₀
    cases hq₀
    exact hother (hp₀ ▸ hev)
  cases hs with
  | acquired hsem =>
    exact ⟨[], (List.append_nil _).symm, Or.inl ⟨by simp, m, hq, rfl, rfl⟩⟩
  | moved hev hcall hmoves _ hinner =>
    exact ⟨[], (List.append_nil _).symm, h.handled_driven (.refl none _) nofun hq
      (fun _ _ _ => by rw [hinner]) fun _ hx => hx⟩
  | gaveUp hev hcall hholds _ hinner =>
    exact ⟨[], (List.append_nil _).symm, h.handled_driven (.refl none _) nofun hq
      (fun _ _ _ => by rw [hinner]) fun _ hx => absurd hx List.not_mem_nil⟩
  | refused hcall hresp hres =>
    exact ⟨_, rfl, (h.hear _ _ _).handled_driven (InnerConnection.driven_pollResp hresp) nofun hq
      (fun _ _ _ => Iff.rfl) (List.subset_append_left _ _)⟩
  | dead hcall hresp hres =>
    exact ⟨_, rfl, (h.hear _ _ _).handled_driven (InnerConnection.driven_pollResp hresp) nofun hq
      (fun _ _ _ => Iff.rfl) fun _ hx => hx⟩
  | alive hcall hresp hres hcan =>
    exact ⟨_, rfl, (h.hear _ _ _).handled_driven (InnerConnection.driven_pollResp hresp) nofun hq
      (h.insertAt_iff hcall rfl hq hcan) fun _ hx => hx⟩
  | notified hcall =>
    exact ⟨[], (List.append_nil _).symm,
      h.handled_driven (InnerConnection.driven_notify none _) nofun hq (fun _ _ _ => Iff.rfl)
        fun _ hx => hx⟩
  | reconnected hcall hcan =>
    exact ⟨[], (List.append_nil _).symm, (h.history self.log none).handled_driven (.refl none _) nofun hq
      (h.insertAt_iff hcall rfl hq hcan) fun _ hx => hx⟩
  | @framed _ j sock cx call call' body body' _ inner₁ eff₁ _ inner₂ eff₂ hev hcall hpolls hd
      hfree hresp hserved =>
    have hkey := hpolls.key_rid hd
    obtain ⟨-, hdriven, -⟩ := h.driven_framed hcall hkey hresp hserved
    exact ⟨_, rfl, (h.hear _ _ _).handled_driven hdriven (hnot hev hcall hkey) hq
      (fun _ _ _ => Iff.rfl) fun _ hx => hx⟩
  | @putBack j sock cx rid upload body bodydata rheaders mpxs status hcall hfree hq₀ =>
    have hkey := h.putting_key hcall
    exact ⟨[], (List.append_nil _).symm,
      h.handled_driven (InnerConnection.Driven.set hq₀
        { mpxs with buf := mpxs.buf.push bodydata } rfl) (hnot rfl hcall hkey) hq
        (fun _ _ _ => Iff.rfl) fun _ hx => hx⟩
  | @dropped j call body mpxs hcall hholds _ hkey hfree hq₀ =>
    exact ⟨[], (List.append_nil _).symm,
      h.handled_driven (InnerConnection.Driven.set hq₀
        { mpxs with aborted := true, waker := none } rfl) (hnot rfl hcall hkey) hq
        (fun _ _ _ => Iff.rfl) fun _ hx => hx⟩

/-- An entry was there before, or the call that makes the step put its permit into it. -/
theorem Slots.back (h : Slots max self) {ev : Event} (hs : Stepped self ev self' eff) {k : ℕ}
    {m' : FCGIRequest} (hq' : self'.inner.inner.runningRequests.get? k = some m') :
    (∃ m, self.inner.inner.runningRequests.get? k = some m ∧ m.permit = m'.permit) ∨
      (ev.call? = some m'.permit ∧
        ∃ call, self.calls[m'.permit]? = some call ∧ call.HoldsPermit = true) := by
  have hinsert : ∀ {recs own} {t' : Slab FCGIRequest} {eff₁ : Effects} {j key : ℕ}
      {call : Forward},
      InnerConnection.Driven recs own self.inner.inner.runningRequests t' eff₁ →
      t'.CanInsert key → (t'.insertAt key (.new j)).get? k = some m' → ev.call? = some j →
      self.calls[j]? = some call → call.HoldsPermit = true →
      (∃ m, self.inner.inner.runningRequests.get? k = some m ∧ m.permit = m'.permit) ∨
        (ev.call? = some m'.permit ∧
          ∃ call, self.calls[m'.permit]? = some call ∧ call.HoldsPermit = true) := by
    intro recs own t' eff₁ j key call hd hcan hq hev hcall hholds
    rw [Slab.get?_insertAt hcan] at hq
    split at hq
    · cases hq
      exact Or.inr ⟨hev, call, hcall, hholds⟩
    · exact Or.inl (hd.back k m' hq)
  cases hs with
  | acquired hsem => exact Or.inl ⟨m', hq', rfl⟩
  | moved hev hcall hmoves _ hinner => exact Or.inl ⟨m', hinner ▸ hq', rfl⟩
  | gaveUp hev hcall hholds _ hinner => exact Or.inl ⟨m', hinner ▸ hq', rfl⟩
  | refused hcall hresp hres =>
    exact Or.inl ((InnerConnection.driven_pollResp hresp).back k m' hq')
  | dead hcall hresp hres => exact Or.inl ((InnerConnection.driven_pollResp hresp).back k m' hq')
  | alive hcall hresp hres hcan =>
    exact hinsert (InnerConnection.driven_pollResp hresp) hcan hq' rfl hcall rfl
  | notified hcall => exact Or.inl ((InnerConnection.driven_notify none _).back k m' hq')
  | reconnected hcall hcan => exact hinsert (.refl none _) hcan hq' rfl hcall rfl
  | @framed _ j sock cx call call' body body' _ inner₁ eff₁ _ inner₂ eff₂ hev hcall hpolls hd
      hfree hresp hserved =>
    exact Or.inl ((h.driven_framed hcall (hpolls.key_rid hd) hresp hserved).2.1.back k m' hq')
  | @putBack _ _ _ _ _ _ bodydata _ mpxs _ hcall hfree hq₀ =>
    exact Or.inl ((InnerConnection.Driven.set hq₀
      { mpxs with buf := mpxs.buf.push bodydata } rfl).back k m' hq')
  | @dropped _ _ _ mpxs hcall hholds _ hkey hfree hq₀ =>
    exact Or.inl ((InnerConnection.Driven.set hq₀
      { mpxs with aborted := true, waker := none } rfl).back k m' hq')

/-- A permit comes into the table by its own call. -/
theorem Slots.has (h : Slots max self) {ev : Event} (hs : Stepped self ev self' eff) {p : Permit}
    (hhas : self'.Has p) : self.Has p ∨ ev.call? = some p := by
  obtain ⟨k, m', hq', rfl⟩ := hhas
  rcases h.back hs hq' with ⟨m, hq, hp⟩ | ⟨hev, -⟩
  · exact Or.inl ⟨k, m, hq, hp⟩
  · exact Or.inr hev

/-- The other calls stay where they are. -/
theorem calls_other {ev : Event} (hs : Stepped self ev self' eff)
    (hother : ev.call? ≠ some j) (hcall : self.calls[j]? = some call) :
    self'.calls[j]? = some call := by
  have hset : ∀ {i : ℕ} {c : Forward}, ev.call? = some i →
      (self.calls.set i c)[j]? = some call := by
    intro i c hev
    have hij : i ≠ j := by
      rintro rfl
      exact hother hev
    rw [List.getElem?_set_ne hij]
    exact hcall
  cases hs with
  | acquired hsem =>
    show (self.calls ++ [.waiting])[j]? = some call
    rw [List.getElem?_append_left (List.getElem?_eq_some_iff.mp hcall).1]
    exact hcall
  | moved hev => exact hset hev
  | gaveUp hev => exact hset hev
  | framed hev => exact hset hev
  | _ => exact hset rfl

/-! ## Bodies -/

/-- `body` is the body of the call at `j`, and it is not done. -/
def Live (self : Connection) (j : ℕ) (body : FCGIBody) : Prop :=
  body.done = false ∧ ∃ call, self.calls[j]? = some call ∧ call.body? = some body

theorem Slots.live (h : Slots max self) {body : FCGIBody} (hlive : self.Live j body) :
    ∃ m, self.inner.inner.runningRequests.get? body.rid = some m ∧ m.permit = j ∧
      m.aborted = false := by
  obtain ⟨hd, call, hcall, hbody⟩ := hlive
  exact h.owns j call body.rid hcall (Forward.key?_of_body? hbody hd)

/-- Two calls: the first waits for its response, the second for the lock. -/
def twoCalls : List Event :=
  [.acquire, .lock 0, .check 0 .pending 7 0, .head 0 .noBody, .respond 0 .pending 7, .acquire]

theorem twoCalls_run : ∃ self, Runs (onlyBlock []) 2 twoCalls self ∧
    self.calls = [.exchanging 1 .done (some (.new 0)), .waiting] := by
  have hrun : (replay (tick (onlyBlock [])) (connect 2) twoCalls).map Connection.calls =
      some [.exchanging 1 .done (some (.new 0)), .waiting] := by
    decide +kernel
  obtain ⟨self, hreplay, hcalls⟩ := Option.map_eq_some_iff.mp hrun
  exact ⟨self, run_of_replay step_of_tick _ hreplay, hcalls⟩

/-- **A body only touches its own request.** In every reachable state a body that is not done
has the entry at its `rid`, which its own call inserted and which is not aborted, and no other
such body has the same `rid`. The entry is there behind every `poll_resp` and for the push of
`create_response`; and what a step removes is the request of the call that makes the step, or an
aborted one. -/
theorem bodies_own (hrun : Runs http maxReqPerCon evs self) :
    (∀ j body, self.Live j body →
      ∃ m, self.inner.inner.runningRequests.get? body.rid = some m ∧ m.permit = j ∧
        m.aborted = false) ∧
    (∀ j j' body body', self.Live j body → self.Live j' body' → body.rid = body'.rid → j = j') ∧
    (∀ j body, self.Live j body → ∀ sock cx res inner eff,
      self.inner.inner.pollResp sock cx = .ok (res, inner, eff) →
      ∃ m, inner.runningRequests.get? body.rid = some m ∧ m.permit = j ∧ m.aborted = false) ∧
    (∀ (j : ℕ) rid upload body bodydata rheaders,
      self.calls[j]? =
        some (Forward.exchanging rid upload (some (.putting body bodydata rheaders))) →
      ∃ inner, CreateResponse.putBack body bodydata self.inner.inner = .ok inner) ∧
    ∀ ev self', Step http self ev self' → ∀ k m,
      self.inner.inner.runningRequests.get? k = some m → ¬ self'.Has m.permit →
      ev.call? = some m.permit ∨ (m.aborted = true ∧ ∀ j body, self.Live j body → body.rid ≠ k) := by
  have h := slots_run hrun
  refine ⟨fun j body hlive => h.live hlive, ?_, ?_, ?_, ?_⟩
  · intro j j' body body' hlive hlive' hrid
    obtain ⟨m, hq, hp, -⟩ := h.live hlive
    obtain ⟨m', hq', hp', -⟩ := h.live hlive'
    rw [hrid, hq'] at hq
    cases hq
    exact hp.symm.trans hp'
  · intro j body hlive sock cx res inner eff hresp
    obtain ⟨m, hq, hp, ha⟩ := h.live hlive
    obtain ⟨m', hq', hp', ha'⟩ := (InnerConnection.driven_pollResp hresp).kept body.rid m nofun hq
      fun hend => by rw [ha] at hend; cases hend.1
    exact ⟨m', hq', hp'.trans hp, ha'.trans ha⟩
  · intro j rid upload body bodydata rheaders hcall
    have hbody : body = ⟨rid.toNat - 1, false, false⟩ := (h.open_ j _ hcall).2
    have hlive : self.Live j body := ⟨by rw [hbody], _, hcall, rfl⟩
    obtain ⟨m, hq, -⟩ := h.live hlive
    exact ⟨_, by rw [CreateResponse.putBack, hq]⟩
  · rintro ev self' ⟨eff, hnext⟩ k m hq hgone
    by_cases hev : ev.call? = some m.permit
    · exact Or.inl hev
    · right
      obtain ⟨recs, -, ⟨-, m', hq', hp', -⟩ | ⟨hend, -⟩⟩ := h.handled (next_stepped hnext) hq hev
      · exact absurd ⟨k, m', hq', hp'⟩ hgone
      · refine ⟨hend.1, fun j body hlive hrid => ?_⟩
        obtain ⟨m', hq', -, ha'⟩ := h.live hlive
        rw [hrid, hq] at hq'
        cases hq'
        rw [hend.1] at ha'
        cases ha'

theorem bodies_own_twoCalls : ∃ self, Runs (onlyBlock []) 2 twoCalls self ∧
    self.Live 0 ⟨0, false, false⟩ ∧
    ∃ m, self.inner.inner.runningRequests.get? 0 = some m ∧ m.permit = 0 ∧ m.aborted = false := by
  obtain ⟨self, hrun, hcalls⟩ := twoCalls_run
  have hlive : self.Live 0 ⟨0, false, false⟩ := ⟨rfl, _, by rw [hcalls]; rfl, rfl⟩
  exact ⟨self, hrun, hlive, (bodies_own hrun).1 0 _ hlive⟩

/-! ## Ids -/

theorem Slots.lt (h : Slots max self) {k : ℕ} {m : FCGIRequest}
    (hq : self.inner.inner.runningRequests.get? k = some m) : k < max :=
  Nat.lt_of_lt_of_le (Slab.lt_of_get? hq) h.bound

theorem toNat_ridOf {k : ℕ} (hk : k + 1 < 2 ^ 16) : (ridOf k).toNat = k + 1 := by
  rw [ridOf, UInt16.toNat_ofNat', Nat.mod_eq_of_lt hk]

/-- An id that is not 0 is the id of its key. -/
theorem ridOf_pred {rid : UInt16} (hrid : rid ≠ 0) : ridOf (rid.toNat - 1) = rid := by
  have hpos : rid.toNat ≠ 0 := fun h0 => hrid (UInt16.toNat_inj.mp h0)
  have hlt := rid.toNat_lt
  apply UInt16.toNat_inj.mp
  rw [toNat_ridOf (by omega)]
  omega

/-- **Ids stay in range.** In every reachable state the requests in the table, the free permits
and those of calls that wait add up. So every key is below their number, the id made of it is
neither cut off nor 0 and leads back to the key, and calls that use an id do not share it. -/
theorem ids_in_range (hrun : Runs http maxReqPerCon evs self) :
    self.inner.inner.runningRequests.size + self.sem + self.holding = maxReqPerCon.toNat ∧
    (∀ k m, self.inner.inner.runningRequests.get? k = some m →
      k < maxReqPerCon.toNat ∧ (ridOf k).toNat = k + 1 ∧ ridOf k ≠ 0 ∧
        reqNo (ridOf k) = some k ∧ responseOf (ridOf k) none = .ok (.new k)) ∧
    (∀ k k' m m', self.inner.inner.runningRequests.get? k = some m →
      self.inner.inner.runningRequests.get? k' = some m' → ridOf k = ridOf k' → k = k') ∧
    ∀ (j : ℕ) call rid, self.calls[j]? = some call → Forward.rid? call = some rid →
      (∃ k m, self.inner.inner.runningRequests.get? k = some m ∧ m.permit = j ∧ rid = ridOf k) ∧
        ∀ j' call', self.calls[j']? = some call' → Forward.rid? call' = some rid → j' = j := by
  have h := slots_run hrun
  have hmax := maxReqPerCon.toNat_lt
  have hto : ∀ k m, self.inner.inner.runningRequests.get? k = some m →
      (ridOf k).toNat = k + 1 := by
    intro k m hq
    have := h.lt hq
    exact toNat_ridOf (by omega)
  refine ⟨by have := h.count; omega, fun k m hq => ?_, fun k k' m m' hq hq' hrid => ?_,
    fun j call rid hcall hrid => ?_⟩
  · have hne : ridOf k ≠ 0 := by
      intro h0
      have := hto k m hq
      rw [h0] at this
      simp at this
    refine ⟨h.lt hq, hto k m hq, hne, ?_, ?_⟩
    · rw [reqNo, if_neg hne, hto k m hq, Nat.add_sub_cancel]
    · rw [responseOf, if_neg hne, hto k m hq, Nat.add_sub_cancel]
  · have hk := hto k m hq
    rw [hrid, hto k' m' hq'] at hk
    omega
  · obtain ⟨hne, hkey⟩ := (h.open_ j call hcall).key? hrid
    obtain ⟨m, hq, hp, -⟩ := h.owns j call _ hcall hkey
    refine ⟨⟨_, m, hq, hp, (ridOf_pred hne).symm⟩, fun j' call' hcall' hrid' => ?_⟩
    exact h.eq_of_key? hcall hcall' hkey ((h.open_ j' call' hcall').key? hrid').2

theorem ids_in_range_twoCalls : ∃ self, Runs (onlyBlock []) 2 twoCalls self ∧
    self.inner.inner.runningRequests.size + self.sem + self.holding = 2 := by
  obtain ⟨self, hrun, -⟩ := twoCalls_run
  exact ⟨self, hrun, (ids_in_range hrun).1⟩

end Connection

end AsyncFcgi
