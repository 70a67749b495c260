import AsyncFcgi.Client.Slots

/-!
# The lock, and whose a request is (`src/client/connection.rs`)

One call at a time has the lock, and only with it does a call change the table of requests.
A request stays with the call that inserted it until that call leaves or is done with it, and a
call that gave its permit away left it in the table or had it dropped.

* `Locked.step`: the lock goes from call to call.
* `Locked.requests_other`: nobody else changes the table while a call has the lock.
* `Placed.step`: requests stay with their calls.
-/

namespace AsyncFcgi

open Lib

namespace Connection

variable {http : Http} {max : ℕ} {self self' : Connection} {ev : Event} {eff : Effects} {i j : ℕ}
  {call call' : Forward}

/-! ## The lock -/

/-- The call at `j` has the lock. -/
def Locks (self : Connection) (j : ℕ) : Prop :=
  ∃ call, self.calls[j]? = some call ∧ Forward.Locks call = true

/-- The mutex is locked while a call has the lock, and no two have it. -/
structure Locked (con : Connection) : Prop where
  free : con.inner.waiters = none → ∀ i, ¬ con.Locks i
  held : con.inner.waiters ≠ none → ∃ i, con.Locks i
  one : ∀ i j, con.Locks i → con.Locks j → i = j

theorem locked_connect (maxReqPerCon : UInt16) : Locked (connect maxReqPerCon) where
  free _ i := by rintro ⟨call, h, -⟩; simp [connect] at h
  held h := by simp [connect] at h
  one i j := by rintro ⟨call, h, -⟩; simp [connect] at h

/-- Every step but that of a new call moves one call, and the lock with it. No call gets its
permit again. -/
theorem Stepped.relocks (hs : Stepped self ev self' eff) :
    (self'.calls = self.calls ++ [.waiting] ∧ self'.inner = self.inner) ∨
      ∃ j call call', ev.call? = some j ∧ self.calls[j]? = some call ∧
        self'.calls = self.calls.set j call' ∧
        (Forward.HoldsPermit call = false → Forward.HoldsPermit call' = false) ∧
        Forward.Relocks call call' self.inner.waiters self'.inner.waiters := by
  cases hs with
  | acquired => exact Or.inl ⟨rfl, rfl⟩
  | moved hev hcall hmoves hlock =>
    exact Or.inr ⟨_, _, _, hev, hcall, rfl, fun h => hmoves.holds.trans h, hlock⟩
  | gaveUp hev hcall _ hlock => exact Or.inr ⟨_, _, _, hev, hcall, rfl, fun _ => rfl, hlock⟩
  | refused hcall => exact Or.inr ⟨_, _, _, rfl, hcall, rfl, fun _ => rfl, .gives rfl rfl rfl⟩
  | dead hcall => exact Or.inr ⟨_, _, _, rfl, hcall, rfl, nofun, .keeps rfl rfl⟩
  | alive hcall => exact Or.inr ⟨_, _, _, rfl, hcall, rfl, nofun, .keeps rfl rfl⟩
  | notified hcall => exact Or.inr ⟨_, _, _, rfl, hcall, rfl, nofun, .keeps rfl rfl⟩
  | reconnected hcall => exact Or.inr ⟨_, _, _, rfl, hcall, rfl, nofun, .keeps rfl rfl⟩
  | framed hev hcall hpolls _ hfree =>
    exact Or.inr ⟨_, _, _, hev, hcall, rfl, fun _ => hpolls.holds', .keeps hpolls.locks hfree.symm⟩
  | @putBack _ _ _ _ upload _ _ _ _ _ hcall hfree =>
    exact Or.inr ⟨_, _, _, rfl, hcall, rfl, fun _ => rfl,
      .keeps (by cases upload <;> rfl) hfree.symm⟩
  | dropped hcall _ hlocks _ hfree =>
    exact Or.inr ⟨_, _, _, rfl, hcall, rfl, fun _ => rfl, .keeps hlocks.symm hfree.symm⟩

/-- Another call is where it was, or new. -/
theorem calls_back (hs : Stepped self ev self' eff) (hother : ev.call? ≠ some j)
    (hcall' : self'.calls[j]? = some call') : self.calls[j]? = some call' ∨ call' = .waiting := by
  rcases hs.relocks with ⟨hcalls, -⟩ | ⟨i, call, call'', hev, -, hcalls, -⟩
  · rw [hcalls, List.getElem?_append] at hcall'
    split at hcall'
    · exact Or.inl hcall'
    · exact Or.inr (List.mem_singleton.mp (List.mem_of_getElem? hcall'))
  · have hij : i ≠ j := by
      rintro rfl
      exact hother hev
    rw [hcalls, List.getElem?_set_ne hij] at hcall'
    exact Or.inl hcall'

/-- The call at `j` gave its permit away. -/
def Spent (self : Connection) (j : ℕ) : Prop :=
  ∃ call, self.calls[j]? = some call ∧ Forward.HoldsPermit call = false

theorem Spent.step (h : self.Spent j) (hs : Stepped self ev self' eff) : self'.Spent j := by
  obtain ⟨call, hcall, hno⟩ := h
  by_cases hev : ev.call? = some j
  · rcases hs.relocks with ⟨hcalls, -⟩ | ⟨i, call₀, call', hev', hcall₀, hcalls, hholds, -⟩
    · refine ⟨call, ?_, hno⟩
      rw [hcalls, List.getElem?_append_left (List.getElem?_eq_some_iff.mp hcall).1, hcall]
    · obtain rfl : j = i := Option.some.inj (hev.symm.trans hev')
      rw [hcall] at hcall₀
      cases hcall₀
      refine ⟨call', ?_, hholds hno⟩
      rw [hcalls, List.getElem?_set_self (List.getElem?_eq_some_iff.mp hcall).1]
  · exact ⟨call, calls_other hs hev hcall, hno⟩

/-- A call without its permit keeps its request, or is done with it. -/
theorem Stepped.key_back (hs : Stepped self ev self' eff) (hcall : self.calls[j]? = some call)
    (hno : Forward.HoldsPermit call = false) (hcall' : self'.calls[j]? = some call') {k : ℕ}
    (hkey : call'.key? = some k) : call.key? = some k := by
  by_cases hev : ev.call? = some j
  · have hset : ∀ {c c' : Forward}, self.calls[j]? = some c →
        (self.calls.set j c')[j]? = some call' → c = call ∧ c' = call' := by
      intro c c' hc hc'
      rw [List.getElem?_set_self (List.getElem?_eq_some_iff.mp hc).1] at hc'
      exact ⟨Option.some.inj (hc.symm.trans hcall), Option.some.inj hc'⟩
    cases hs with
    | acquired => cases hev
    | moved hev' hc hmoves =>
      cases hev.symm.trans hev'
      obtain ⟨rfl, rfl⟩ := hset hc hcall'
      rcases hmoves.key with rfl | hsame
      · cases hkey
      · exact hsame ▸ hkey
    | gaveUp hev' hc =>
      cases hev.symm.trans hev'
      obtain ⟨-, rfl⟩ := hset hc hcall'
      cases hkey
    | refused hc =>
      cases hev
      obtain ⟨rfl, -⟩ := hset hc hcall'
      cases hno
    | dead hc =>
      cases hev
      obtain ⟨rfl, -⟩ := hset hc hcall'
      cases hno
    | alive hc =>
      cases hev
      obtain ⟨rfl, -⟩ := hset hc hcall'
      cases hno
    | notified hc =>
      cases hev
      obtain ⟨rfl, -⟩ := hset hc hcall'
      cases hno
    | reconnected hc =>
      cases hev
      obtain ⟨rfl, -⟩ := hset hc hcall'
      cases hno
    | @framed _ _ sock cx c c' body body' _ _ _ _ _ _ hev' hc hpolls hd _ _ hserved =>
      cases hev.symm.trans hev'
      obtain ⟨rfl, rfl⟩ := hset hc hcall'
      have hrid : body'.rid = body.rid := by cases hserved <;> rfl
      rw [hpolls.key', FCGIBody.key?] at hkey
      split at hkey
      · cases hkey
      · rw [hpolls.key_rid hd, ← hrid, hkey]
    | putBack hc =>
      cases hev
      obtain ⟨rfl, rfl⟩ := hset hc hcall'
      exact hkey
    | dropped hc =>
      cases hev
      obtain ⟨-, rfl⟩ := hset hc hcall'
      cases hkey
  · rw [calls_other hs hev hcall] at hcall'
    cases hcall'
    exact hkey

theorem Locked.step (h : Locked self) (hs : Stepped self ev self' eff) : Locked self' := by
  rcases hs.relocks with ⟨hcalls, hinner⟩ | ⟨j, call, call', -, hcall, hcalls, -, hlock⟩
  · have hsame : ∀ i, self'.Locks i ↔ self.Locks i := by
      intro i
      unfold Connection.Locks
      rw [hcalls, List.getElem?_append]
      split
      · rfl
      · rename_i hlt
        rw [List.getElem?_eq_none (Nat.not_lt.mp hlt)]
        refine iff_of_false ?_ (by simp)
        rintro ⟨c, hc, hl⟩
        rw [List.mem_singleton.mp (List.mem_of_getElem? hc)] at hl
        cases hl
    refine ⟨fun hw i => ?_, fun hw => ?_, fun i j => ?_⟩
    · rw [hsame]
      exact h.free (hinner ▸ hw) i
    · obtain ⟨i, hi⟩ := h.held (hinner ▸ hw)
      exact ⟨i, (hsame i).mpr hi⟩
    · rw [hsame, hsame]
      exact h.one i j
  · obtain ⟨hlt, -⟩ := List.getElem?_eq_some_iff.mp hcall
    have hself : self.Locks j ↔ Forward.Locks call = true := by
      unfold Connection.Locks
      rw [hcall]
      simp
    have hj : self'.Locks j ↔ Forward.Locks call' = true := by
      unfold Connection.Locks
      rw [hcalls, List.getElem?_set_self hlt]
      simp
    have hother : ∀ i, i ≠ j → (self'.Locks i ↔ self.Locks i) := by
      intro i hi
      unfold Connection.Locks
      rw [hcalls, List.getElem?_set_ne (Ne.symm hi)]
    cases hlock with
    | keeps hl hw =>
      have hsame : ∀ i, self'.Locks i ↔ self.Locks i := by
        intro i
        by_cases hi : i = j
        · subst hi
          rw [hj, hself, hl]
        · exact hother i hi
      refine ⟨fun hw' i => ?_, fun hw' => ?_, fun i j => ?_⟩
      · rw [hsame]
        exact h.free (hw ▸ hw') i
      · obtain ⟨i, hi⟩ := h.held (hw ▸ hw')
        exact ⟨i, (hsame i).mpr hi⟩
      · rw [hsame, hsame]
        exact h.one i j
    | takes hl hl' hw hw' =>
      have honly : ∀ i, self'.Locks i → i = j := by
        intro i hi
        by_contra hne
        exact h.free hw i ((hother i hne).mp hi)
      exact ⟨fun hw'' => absurd hw'' hw', fun _ => ⟨j, hj.mpr hl'⟩,
        fun a b ha hb => (honly a ha).trans (honly b hb).symm⟩
    | gives hl hl' hw' =>
      have hnone : ∀ i, ¬ self'.Locks i := by
        intro i hi
        by_cases hij : i = j
        · subst hij
          rw [hj, hl'] at hi
          cases hi
        · exact hij (h.one i j ((hother i hij).mp hi) (hself.mpr hl))
      exact ⟨fun _ => hnone, fun hw => absurd hw' hw, fun a b ha _ => absurd ha (hnone a)⟩

/-- While a call has the lock, no other changes the table of requests. -/
theorem Locked.requests_other (h : Locked self) (hs : Stepped self ev self' eff)
    (hi : self.Locks i) (hother : ev.call? ≠ some i) :
    self'.inner.inner.runningRequests = self.inner.inner.runningRequests := by
  have hlocks : ∀ {j : ℕ} {call : Forward}, ev.call? = some j → self.calls[j]? = some call →
      Forward.Locks call = true → False := by
    intro j call hev hcall hl
    exact hother (hev.trans (congrArg some (h.one j i ⟨call, hcall, hl⟩ hi)))
  cases hs with
  | acquired => rfl
  | moved _ _ _ _ hinner => exact congrArg InnerConnection.runningRequests hinner
  | gaveUp _ _ _ _ hinner => exact congrArg InnerConnection.runningRequests hinner
  | refused hcall => exact (hlocks rfl hcall rfl).elim
  | dead hcall => exact (hlocks rfl hcall rfl).elim
  | alive hcall => exact (hlocks rfl hcall rfl).elim
  | notified hcall => exact (hlocks rfl hcall rfl).elim
  | reconnected hcall => exact (hlocks rfl hcall rfl).elim
  | framed _ _ _ _ hfree => exact absurd hi (h.free hfree i)
  | putBack _ hfree => exact absurd hi (h.free hfree i)
  | dropped _ _ _ _ hfree => exact absurd hi (h.free hfree i)

/-! ## Whose a request is -/

/-- A request is that of its call, as long as that did not leave; and a call without its permit
has a request, or the permit was dropped. -/
structure Placed (con : Connection) : Prop where
  owner : ∀ k m, con.inner.inner.runningRequests.get? k = some m →
    ∃ call, con.calls[m.permit]? = some call ∧ (call = .left ∨ call.key? = some k)
  spent : ∀ (j : ℕ) call, con.calls[j]? = some call → Forward.HoldsPermit call = false →
    con.Has j ∨ j ∈ con.released

theorem placed_connect (maxReqPerCon : UInt16) : Placed (connect maxReqPerCon) where
  owner _ _ h := by simp [connect, InnerConnection.fresh] at h
  spent _ _ h := by simp [connect] at h

/-- What `Placed` says of the call at `j`. -/
structure PlacedAt (con : Connection) (j : ℕ) : Prop where
  owner : ∀ k m, con.inner.inner.runningRequests.get? k = some m → m.permit = j →
    ∃ call, con.calls[j]? = some call ∧ (call = .left ∨ call.key? = some k)
  spent : ∀ call, con.calls[j]? = some call → Forward.HoldsPermit call = false →
    con.Has j ∨ j ∈ con.released

/-- The entry that is inserted is the only one of its call. -/
theorem Slots.placedAt_inserted (h : Slots max self) (hmax : max < 2 ^ 16) {t : Slab FCGIRequest}
    {key : ℕ} (hcan : t.CanInsert key)
    (ht : self.inner.inner.runningRequests = t.insertAt key (.new j))
    (hnone : ∀ k m, t.get? k = some m → m.permit ≠ j)
    (hcall : self.calls[j]? = some (.sending (ridOf key))) : PlacedAt self j := by
  have hkey : self.inner.inner.runningRequests.get? key = some (.new j) := by
    rw [ht, Slab.get?_insertAt hcan, if_pos rfl]
  have hlt := h.lt hkey
  refine ⟨fun k m hq hpj => ⟨_, hcall, Or.inr ?_⟩, fun _ _ _ => Or.inl ⟨key, _, hkey, rfl⟩⟩
  rw [ht, Slab.get?_insertAt hcan] at hq
  split at hq
  · rename_i hk
    rw [Forward.key?, toNat_ridOf (by omega), Nat.add_sub_cancel, hk]
  · exact absurd hpj (hnone k m hq)

/-- The call that makes the step, and its request. -/
theorem Placed.own (hp : Placed self) (h : Slots max self) (h' : Slots max self')
    (hmax : max < 2 ^ 16) (hs : Stepped self ev self' eff) (hev : ev.call? = some j)
    (hleft : self.calls[j]? ≠ some .left) : PlacedAt self' j := by
  have hset : ∀ {call call' : Forward}, self.calls[j]? = some call →
      (self.calls.set j call')[j]? = some call' := fun hcall =>
    List.getElem?_set_self (List.getElem?_eq_some_iff.mp hcall).1
  cases hs with
  | acquired => cases hev
  | @moved _ j' call call' inner hev' hcall hmoves _ hinner =>
    obtain rfl : j = j' := Option.some.inj (hev.symm.trans hev')
    refine ⟨fun k m' hq' hpj => ⟨call', hset hcall, ?_⟩, fun c hc hno => ?_⟩
    · obtain ⟨c, hc, hk⟩ := hp.owner k m' (hinner ▸ hq')
      rw [hpj, hcall] at hc
      cases hc
      have hk := hk.resolve_left fun hl => hleft (hl ▸ hcall)
      exact hmoves.key.imp_right fun hsame => hsame.trans hk
    · replace hc : (self.calls.set j call')[j]? = some c := hc
      rw [hset hcall] at hc
      cases hc
      refine (hp.spent j call hcall (hmoves.holds ▸ hno)).imp ?_ (List.mem_append_left _)
      rintro ⟨k, m, hq, hpj⟩
      exact ⟨k, m, hinner ▸ hq, hpj⟩
  | @gaveUp _ j' call inner hev' hcall hholds _ hinner =>
    obtain rfl : j = j' := Option.some.inj (hev.symm.trans hev')
    exact ⟨fun k m' hq' hpj => absurd hpj (h.fresh hcall hholds (hinner ▸ hq')),
      fun _ _ _ => Or.inr (List.mem_append_right _ (List.mem_singleton_self j))⟩
  | refused hcall hresp hres =>
    cases hev
    refine ⟨fun k m' hq' hpj => ⟨.left, hset hcall, Or.inl rfl⟩, fun _ _ _ => Or.inr ?_⟩
    exact List.mem_append_right _ (List.mem_append_right _ (List.mem_singleton_self j))
  | dead hcall hresp hres =>
    cases hev
    refine ⟨fun k m' hq' hpj => ?_, fun c hc hno => ?_⟩
    · obtain ⟨m, hq, hpm⟩ := (InnerConnection.driven_pollResp hresp).back k m' hq'
      exact absurd (hpm.trans hpj) (h.fresh hcall rfl hq)
    · replace hc : (self.calls.set j .shutting)[j]? = some c := hc
      rw [hset hcall] at hc
      cases hc
      cases hno
  | alive hcall hresp hres hcan =>
    cases hev
    refine h'.placedAt_inserted hmax hcan rfl (fun k m' hq' hpj => ?_) (hset hcall)
    obtain ⟨m, hq, hpm⟩ := (InnerConnection.driven_pollResp hresp).back k m' hq'
    exact h.fresh hcall rfl hq (hpm.trans hpj)
  | notified hcall =>
    cases hev
    refine ⟨fun k m' hq' hpj => ?_, fun c hc hno => ?_⟩
    · obtain ⟨m, hq, hpm⟩ := (InnerConnection.driven_notify none _).back k m' hq'
      exact absurd (hpm.trans hpj) (h.fresh hcall rfl hq)
    · replace hc : (self.calls.set j .connecting)[j]? = some c := hc
      rw [hset hcall] at hc
      cases hc
      cases hno
  | reconnected hcall hcan =>
    cases hev
    exact h'.placedAt_inserted hmax hcan rfl (fun _ _ hq' => h.fresh hcall rfl hq') (hset hcall)
  | @framed _ j' sock cx call call' body body' _ inner₁ eff₁ _ inner₂ eff₂ hev' hcall hpolls hd
      hfree hresp hserved =>
    obtain rfl : j = j' := Option.some.inj (hev.symm.trans hev')
    have hkey := hpolls.key_rid hd
    obtain ⟨-, hdriven, hrid', hcases⟩ := h.driven_framed hcall hkey hresp hserved
    refine ⟨fun k m' hq' hpj => ⟨call', hset hcall, Or.inr ?_⟩, fun _ _ _ => ?_⟩
    · obtain ⟨m, hq, hpm⟩ := hdriven.back k m' hq'
      obtain ⟨m₀, hq₀, hp₀, -⟩ := h.owns j call body.rid hcall hkey
      obtain rfl := h.unique k body.rid m m₀ hq hq₀ ((hpm.trans hpj).trans hp₀.symm)
      rcases hcases with ⟨hd', -⟩ | ⟨-, hnone, -⟩
      · rw [hpolls.key', FCGIBody.key?, hd', hd, if_neg (by decide), hrid']
      · replace hq' : inner₂.runningRequests.get? body.rid = some m' := hq'
        rw [hnone] at hq'
        cases hq'
    · rcases hcases with ⟨-, m', hq', hp', -⟩ | ⟨-, -, hmem⟩
      · exact Or.inl ⟨_, m', hq', hp'⟩
      · exact Or.inr (List.mem_append_right _ hmem)
  | @putBack _ sock cx rid upload body bodydata rheaders mpxs status hcall hfree hq =>
    cases hev
    have hkey := h.putting_key hcall
    obtain ⟨m₀, hq₀, hp₀, -⟩ := h.owns j _ body.rid hcall hkey
    rw [hq] at hq₀
    cases hq₀
    refine ⟨fun k m' hq' hpj => ⟨_, hset hcall, Or.inr ?_⟩, fun _ _ _ => Or.inl
      ⟨body.rid, { mpxs with buf := mpxs.buf.push bodydata }, ?_, hp₀⟩⟩
    · obtain ⟨m, hq₁, hpm⟩ := (InnerConnection.Driven.set hq
        { mpxs with buf := mpxs.buf.push bodydata } rfl).back k m' hq'
      obtain rfl := h.unique k body.rid m mpxs hq₁ hq ((hpm.trans hpj).trans hp₀.symm)
      exact hkey
    · show (self.inner.inner.runningRequests.set body.rid _).get? body.rid = _
      rw [Slab.get?_set hq, if_pos rfl]
  | @dropped _ call body mpxs hcall hholds _ hkey hfree hq =>
    cases hev
    obtain ⟨m₀, hq₀, hp₀, -⟩ := h.owns j _ body.rid hcall hkey
    rw [hq] at hq₀
    cases hq₀
    refine ⟨fun k m' hq' hpj => ⟨_, hset hcall, Or.inl rfl⟩, fun _ _ _ => Or.inl
      ⟨body.rid, { mpxs with aborted := true, waker := none }, ?_, hp₀⟩⟩
    show (self.inner.inner.runningRequests.set body.rid _).get? body.rid = _
    rw [Slab.get?_set hq, if_pos rfl]

/-- One step. -/
theorem Placed.step (h : Slots max self) (hmax : max < 2 ^ 16) (hp : Placed self)
    (hnext : self.next http ev = .ok (some (self', eff))) : Placed self' := by
  have hs := next_stepped hnext
  have h' := h.step hmax hs
  have hleft : ∀ {j}, ev.call? = some j → self.calls[j]? ≠ some .left := by
    intro j hev hcall
    rw [next_left hcall hev] at hnext
    cases hnext
  refine ⟨fun k m' hq' => ?_, fun j call' hcall' hno => ?_⟩
  · by_cases hev : ev.call? = some m'.permit
    · exact (hp.own h h' hmax hs hev (hleft hev)).owner k m' hq' rfl
    · obtain ⟨m, hq, hpm⟩ := (h.back hs hq').resolve_right fun hown => hev hown.1
      obtain ⟨call, hcall, hk⟩ := hp.owner k m hq
      exact ⟨call, calls_other hs hev (hpm ▸ hcall), hk⟩
  · by_cases hev : ev.call? = some j
    · exact (hp.own h h' hmax hs hev (hleft hev)).spent call' hcall' hno
    · have hcall : self.calls[j]? = some call' := by
        refine (calls_back hs hev hcall').resolve_right ?_
        rintro rfl
        cases hno
      rcases hp.spent j call' hcall hno with ⟨k, m, hq, rfl⟩ | hmem
      · obtain ⟨recs, -, ⟨-, m', hq', hp', -⟩ | ⟨-, -, hrel⟩⟩ := h.handled hs hq hev
        · exact Or.inl ⟨k, m', hq', hp'⟩
        · exact Or.inr hrel
      · rw [hs.grows.2]
        exact Or.inr (List.mem_append_left _ hmem)

/-- The requests, the permits and the lock are with their calls. -/
structure Settled (max : ℕ) (con : Connection) : Prop where
  slots : Slots max con
  locked : Locked con
  placed : Placed con

theorem Settled.step (hmax : max < 2 ^ 16) (h : Settled max self)
    (hs : Step http self ev self') : Settled max self' := by
  obtain ⟨eff, hnext⟩ := hs
  exact ⟨h.slots.step hmax (next_stepped hnext), h.locked.step (next_stepped hnext),
    h.placed.step h.slots hmax hnext⟩

/-- Every reachable state. -/
theorem settled_run {maxReqPerCon : UInt16} {evs : List Event}
    (hrun : Runs http maxReqPerCon evs self) : Settled maxReqPerCon.toNat self :=
  Run.inv (I := Settled maxReqPerCon.toNat)
    ⟨slots_connect _, locked_connect _, placed_connect _⟩
    (fun _ _ _ h hs => h.step maxReqPerCon.toNat_lt hs) hrun

end Connection

end AsyncFcgi
