import AsyncFcgi.Client.Response

/-!
# What a step does to the table of requests (`src/client/connection.rs`)

`Driven` says of two tables that the second came from the first by processing records and by
what the consumer of one request did to its own entry: no entry is new, entries keep their
permit and their aborted flag, and one that was aborted goes, with its permit, at its
END_REQUEST.

* `driven_pollResp`, `driven_notify`: the calls that go through the whole table.
* `driven_served`: a `poll_frame` of a request that is there.
-/

namespace AsyncFcgi

open Lib

namespace InnerConnection

/-- The table `t'` came from `t` by processing `recs`, and by what was done to the request at
`own`; `eff` says which permits were dropped. -/
structure Driven (recs : List Record) (own : Option ℕ) (t t' : Slab FCGIRequest) (eff : Effects) :
    Prop where
  back : ∀ k m', t'.get? k = some m' → ∃ m, t.get? k = some m ∧ m.permit = m'.permit
  kept : ∀ k m, own ≠ some k → t.get? k = some m →
    ¬ (m.aborted = true ∧ ∃ rec ∈ recs, EndOf k rec) →
    ∃ m', t'.get? k = some m' ∧ m'.permit = m.permit ∧ m'.aborted = m.aborted
  freed : ∀ k m, own ≠ some k → t.get? k = some m → m.aborted = true →
    (∃ rec ∈ recs, EndOf k rec) → t'.get? k = none ∧ m.permit ∈ eff.released
  size : t'.size + eff.released.length = t.size
  length : t'.entries.length = t.entries.length

variable {recs : List Record} {own : Option ℕ} {t t' t'' : Slab FCGIRequest} {eff eff' : Effects}

theorem Driven.refl (own : Option ℕ) (t : Slab FCGIRequest) : Driven [] own t t .none where
  back _ m' h := ⟨m', h, rfl⟩
  kept _ m _ h _ := ⟨m, h, rfl, rfl⟩
  freed _ _ _ _ _ h := by simp at h
  size := rfl
  length := rfl

/-- One step after another. -/
theorem Driven.trans {recs' : List Record} (h : Driven recs none t t' eff)
    (h' : Driven recs' own t' t'' eff') : Driven (recs ++ recs') own t t'' (eff ++ eff') where
  back k m' hq := by
    obtain ⟨m₁, hq₁, hp₁⟩ := h'.back k m' hq
    obtain ⟨m, hq₂, hp₂⟩ := h.back k m₁ hq₁
    exact ⟨m, hq₂, hp₂.trans hp₁⟩
  kept k m hown hq hno := by
    obtain ⟨m₁, hq₁, hp₁, ha₁⟩ := h.kept k m nofun hq fun ⟨ha, rec, hmem, hend⟩ =>
      hno ⟨ha, rec, List.mem_append_left _ hmem, hend⟩
    obtain ⟨m₂, hq₂, hp₂, ha₂⟩ := h'.kept k m₁ hown hq₁ fun ⟨ha, rec, hmem, hend⟩ =>
      hno ⟨ha₁ ▸ ha, rec, List.mem_append_right _ hmem, hend⟩
    exact ⟨m₂, hq₂, hp₂.trans hp₁, ha₂.trans ha₁⟩
  freed k m hown hq ha hend := by
    by_cases hfirst : ∃ rec ∈ recs, EndOf k rec
    · obtain ⟨hq₁, hmem⟩ := h.freed k m nofun hq ha hfirst
      refine ⟨?_, List.mem_append_left _ hmem⟩
      cases hq₂ : t''.get? k with
      | none => rfl
      | some m₂ =>
        obtain ⟨m₁, hq', -⟩ := h'.back k m₂ hq₂
        rw [hq₁] at hq'
        cases hq'
    · obtain ⟨m₁, hq₁, hp₁, ha₁⟩ := h.kept k m nofun hq fun hno => hfirst hno.2
      obtain ⟨rec, hmem, hrec⟩ := hend
      have hlast : ∃ rec ∈ recs', EndOf k rec := by
        rcases List.mem_append.mp hmem with hmem | hmem
        · exact absurd ⟨rec, hmem, hrec⟩ hfirst
        · exact ⟨rec, hmem, hrec⟩
      obtain ⟨hq₂, hmem₂⟩ := h'.freed k m₁ hown hq₁ (ha₁ ▸ ha) hlast
      exact ⟨hq₂, List.mem_append_right _ (hp₁ ▸ hmem₂)⟩
  size := by
    have := h.size
    have := h'.size
    rw [Effects.released_append, List.length_append]
    omega
  length := h'.length.trans h.length

/-- The consumer of a request replaces its entry. -/
theorem Driven.set {k : ℕ} {m : FCGIRequest} (hq : t.get? k = some m) (m' : FCGIRequest)
    (hp : m'.permit = m.permit) : Driven [] (some k) t (t.set k m') .none where
  back j m₁ h := by
    rw [Slab.get?_set hq] at h
    split at h
    · rename_i hj
      cases h
      exact ⟨m, hj ▸ hq, hp.symm⟩
    · exact ⟨m₁, h, rfl⟩
  kept j m₁ hj h _ := by
    have hne : j ≠ k := fun he => hj (by rw [he])
    exact ⟨m₁, by rw [Slab.get?_set hq, if_neg hne, h], rfl, rfl⟩
  freed _ _ _ _ _ h := by simp at h
  size := Slab.size_set hq m'
  length := Slab.length_set t k m'

/-- The consumer of a request removes its entry. -/
theorem Driven.remove {k : ℕ} {m : FCGIRequest} (hq : t.get? k = some m) :
    Driven [] (some k) t (t.remove k) (.release m.permit) where
  back j m₁ h := by
    rw [Slab.get?_remove] at h
    split at h
    · cases h
    · exact ⟨m₁, h, rfl⟩
  kept j m₁ hj h _ := by
    have hne : j ≠ k := fun he => hj (by rw [he])
    exact ⟨m₁, by rw [Slab.get?_remove, if_neg hne, h], rfl, rfl⟩
  freed _ _ _ _ _ h := by simp at h
  size := Slab.size_remove hq
  length := Slab.length_remove t k

theorem driven_notify (own : Option ℕ) (t : Slab FCGIRequest) :
    Driven [] own t (notifyEveryone t).1 (notifyEveryone t).2 where
  back k m' h := by
    rw [get?_notifyEveryone] at h
    obtain ⟨m, hq, rfl⟩ := Option.map_eq_some_iff.mp h
    exact ⟨m, hq, (notify_kept m).permit.symm⟩
  kept k m _ h _ :=
    ⟨notify m, by rw [get?_notifyEveryone, h]; rfl, (notify_kept m).permit, (notify_kept m).aborted⟩
  freed _ _ _ _ _ h := by simp at h
  size := Slab.size_map notify t
  length := Slab.length_map notify t

/-- What one record does to the entry of its request: an END_REQUEST of an aborted one removes
it and drops its permit, anything else keeps it. -/
theorem receive_cases (mpxs : FCGIRequest) (rec : Record) (key : ℕ)
    (hid : reqNo rec.getRequestId = some key) :
    (mpxs.aborted = true ∧ EndOf key rec ∧ (mpxs.receive rec.body).1 = none ∧
        (mpxs.receive rec.body).2.released = [mpxs.permit]) ∨
      (¬ (mpxs.aborted = true ∧ EndOf key rec) ∧ (mpxs.receive rec.body).2.released = [] ∧
        ∃ mpxs', (mpxs.receive rec.body).1 = some mpxs' ∧ Kept mpxs mpxs') := by
  by_cases hend : mpxs.aborted = true ∧ EndOf key rec
  · obtain ⟨ha, hend⟩ := hend
    refine Or.inl ⟨ha, hend, ?_⟩
    cases hb : rec.body with
    | endRequest b => simp [FCGIRequest.receive, ha, Effects.wake, Effects.release]
    | _ => simp [EndOf, hb] at hend
  · refine Or.inr ⟨hend, ?_⟩
    have hsome : (mpxs.receive rec.body).2.released = [] ∧
        ∃ mpxs', (mpxs.receive rec.body).1 = some mpxs' := by
      cases hb : rec.body with
      | endRequest b =>
        have ha : mpxs.aborted = false := by simpa [EndOf, hid, hb] using hend
        simp [FCGIRequest.receive, ha, Effects.wake]
      | stdOut s =>
        simp only [FCGIRequest.receive]
        split_ifs <;> exact ⟨rfl, _, rfl⟩
      | _ => exact ⟨rfl, _, rfl⟩
    obtain ⟨hrel, mpxs', hm⟩ := hsome
    exact ⟨hrel, mpxs', hm, receive_kept hm⟩

/-- One record. -/
theorem driven_distributeTo (t : Slab FCGIRequest) (rec : Record) :
    Driven [rec] none t (distributeTo t rec).1 (distributeTo t rec).2 := by
  have hquiet : (∀ key mpxs, reqNo rec.getRequestId = some key → t.get? key ≠ some mpxs) →
      Driven [rec] none t t .none := by
    intro hno
    refine ⟨fun k m' h => ⟨m', h, rfl⟩, fun k m _ h _ => ⟨m, h, rfl, rfl⟩, ?_, rfl, rfl⟩
    rintro k m - hq - ⟨r, hmem, hend⟩
    rw [List.mem_singleton.mp hmem] at hend
    exact absurd hq (hno k m hend.1)
  unfold distributeTo
  cases hid : reqNo rec.getRequestId with
  | none => exact hquiet fun key mpxs h => by rw [hid] at h; cases h
  | some key =>
    cases hq : t.get? key with
    | none =>
      simp only [hq]
      refine hquiet fun key' mpxs h => ?_
      rw [hid] at h
      cases h
      rw [hq]
      exact nofun
    | some mpxs =>
      simp only [hq]
      rcases receive_cases mpxs rec key hid with ⟨ha, hend, hnone, hrel⟩ | ⟨hno, hrel, mpxs', hsome, hk⟩
      · rcases hr : mpxs.receive rec.body with ⟨o, eff⟩
        rw [hr] at hnone hrel
        obtain rfl : o = none := hnone
        replace hrel : eff.released = [mpxs.permit] := hrel
        have hd := Driven.remove hq
        refine ⟨hd.back, fun k m _ h hno => ?_, fun k m _ h _ ⟨r, hmem, hr⟩ => ?_, ?_, hd.length⟩
        · by_cases hk : k = key
          · subst hk
            rw [hq] at h
            cases h
            exact absurd ⟨ha, rec, List.mem_singleton_self rec, hend⟩ hno
          · exact ⟨m, by rw [Slab.get?_remove, if_neg hk, h], rfl, rfl⟩
        · rw [List.mem_singleton.mp hmem] at hr
          obtain rfl : key = k := Option.some.inj (hend.1.symm.trans hr.1)
          rw [hq] at h
          cases h
          exact ⟨by simp, by simp [hrel]⟩
        · rw [hrel]
          exact hd.size
      · rcases hr : mpxs.receive rec.body with ⟨o, eff⟩
        rw [hr] at hsome hrel
        obtain rfl : o = some mpxs' := hsome
        replace hrel : eff.released = [] := hrel
        have hd := Driven.set hq mpxs' hk.permit
        refine ⟨hd.back, fun k m _ h _ => ?_, fun k m _ h ha ⟨r, hmem, hr⟩ => ?_, ?_, hd.length⟩
        · by_cases hk' : k = key
          · subst hk'
            rw [hq] at h
            cases h
            exact ⟨mpxs', by simp [Slab.get?_set hq], hk.permit, hk.aborted⟩
          · exact ⟨m, by rw [Slab.get?_set hq, if_neg hk', h], rfl, rfl⟩
        · rw [List.mem_singleton.mp hmem] at hr
          obtain rfl : key = k := Option.some.inj (hid.symm.trans hr.1)
          rw [hq] at h
          cases h
          exact absurd ⟨ha, hr⟩ hno
        · rw [hrel]
          exact hd.size

theorem driven_foldl (recs : List Record) : ∀ acc : Slab FCGIRequest × Effects,
    ∃ eff, Driven recs none acc.1 (recs.foldl distribute acc).1 eff ∧
      (recs.foldl distribute acc).2 = acc.2 ++ eff := by
  induction recs with
  | nil => intro acc; exact ⟨.none, .refl none acc.1, (FCGIBody.effects_append_none _).symm⟩
  | cons rec recs ih =>
    intro acc
    obtain ⟨eff, hd, he⟩ := ih (distribute acc rec)
    refine ⟨_, (driven_distributeTo acc.1 rec).trans hd, ?_⟩
    rw [List.foldl_cons, he]
    simp only [distribute, Effects.append_assoc]

/-- A call of `poll_resp`. -/
theorem driven_pollResp {self self' : InnerConnection} {sock : SocketRead} {cx : Waker}
    {res : Poll (Option (Except IoError Unit))} {eff : Effects}
    (h : self.pollResp sock cx = .ok (res, self', eff)) :
    Driven (self.records sock cx) none self.runningRequests self'.runningRequests eff := by
  obtain ⟨acc, rfl, hcases⟩ := pollResp_requests h
  obtain ⟨eff₁, hd, he⟩ := driven_foldl (self.records sock cx) (self.runningRequests, .none)
  have hrel : ∀ e : Effects, e.released = eff₁.released →
      ∀ t', Driven (self.records sock cx) none self.runningRequests t' eff₁ →
        Driven (self.records sock cx) none self.runningRequests t' e := by
    intro e he t' hd
    exact ⟨hd.back, hd.kept, fun k m ho hq ha hr => he ▸ hd.freed k m ho hq ha hr, he ▸ hd.size,
      hd.length⟩
  have hfold : ((self.records sock cx).foldl distribute (self.runningRequests, .none)).2.released =
      eff₁.released := by
    rw [he]
    rfl
  rcases hcases with ⟨-, hreq, -, hr⟩ | ⟨-, hreq, -, hr⟩
  · rw [hreq]
    exact hrel eff (hr.trans hfold) _ hd
  · rw [hreq]
    refine hrel eff (hr.trans hfold) _ ?_
    have hn := hd.trans (driven_notify none _)
    rw [List.append_nil] at hn
    exact ⟨hn.back, hn.kept, fun k m ho hq ha hr => by simpa [notifyEveryone] using hn.freed k m ho hq ha hr,
      by simpa [notifyEveryone] using hn.size, hn.length⟩

/-- What the consumer does with an entry that is there. -/
theorem driven_served {body body' : FCGIBody} {inner inner' : InnerConnection} {cx : Waker}
    {res : FramePoll} {eff : Effects} {m : FCGIRequest}
    (hq : inner.runningRequests.get? body.rid = some m)
    (h : FCGIBody.Served body inner cx res body' inner' eff) :
    Driven [] (some body.rid) inner.runningRequests inner'.runningRequests eff ∧
      body'.rid = body.rid ∧
      ((body'.done = body.done ∧ eff = .none ∧
          ∃ m', inner'.runningRequests.get? body.rid = some m' ∧ m'.permit = m.permit ∧
            m'.aborted = m.aborted) ∨
        (body'.done = true ∧ eff = .release m.permit ∧
          inner'.runningRequests.get? body.rid = none)) := by
  cases h with
  | vanished hq' => rw [hq] at hq'; cases hq'
  | @frame slab front rest hq' _ _ _ =>
    rw [hq] at hq'
    cases hq'
    exact ⟨.set hq _ rfl, rfl, Or.inl ⟨rfl, rfl, { m with buf := ⟨rest⟩ },
      by simp [Slab.get?_set hq], rfl, rfl⟩⟩
  | last hq' _ _ _ _ _ =>
    rw [hq] at hq'
    cases hq'
    exact ⟨.remove hq, rfl, Or.inr ⟨rfl, rfl, by simp⟩⟩
  | finished hq' _ _ _ =>
    rw [hq] at hq'
    cases hq'
    exact ⟨.remove hq, rfl, Or.inr ⟨rfl, rfl, by simp⟩⟩
  | early hq' _ _ _ => exact ⟨.refl _ _, rfl, Or.inl ⟨rfl, rfl, m, hq, rfl, rfl⟩⟩
  | @waits slab hq' _ _ =>
    rw [hq] at hq'
    cases hq'
    exact ⟨.set hq _ rfl, rfl, Or.inl ⟨rfl, rfl, { m with waker := some cx },
      by simp [Slab.get?_set hq], rfl, rfl⟩⟩

end InnerConnection

end AsyncFcgi
