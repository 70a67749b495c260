import AsyncFcgi.Client.Answers
import AsyncFcgi.Client.Multiplex

/-!
# The request of a call, and the answer to it (`src/client/connection.rs`)

The ids of requests are used again and again. That what comes with an id is the answer to the
request of the call that has the id now takes that the requests with an id and the answers with it
are counted alike.

* `Attended.step`: the request of a call is the last one with its id as long as it is in the table.
* `Attended.fits`: so what comes with the id is the answer to it.
* `attended_start`: when a request is inserted, all requests with its id were answered.
-/

namespace AsyncFcgi

open Lib WireRecord

namespace Connection

variable {http : Http} {self self' : Connection} {ev : Event} {eff : Effects} {j k : ℕ}
  {call call' : Forward}

/-! ## Where a call can come from -/

theorem turn_fresh (h : Forward.Turn ev call call') (hf : call.Fresh = false) :
    call'.Fresh = false := by
  cases h with
  | @head _ _ res => cases res <;> rfl
  | @upload _ _ _ res => cases res <;> rfl
  | respond => rfl
  | finish => rfl
  | read => rfl
  | drop => rfl
  | gaveUp => rfl
  | cut => rfl
  | abandoned => rfl
  | uploadLock => rfl
  | _ => cases hf

/-- A call that is about to begin its request does, unless it is dropped. -/
theorem turn_sending {rid : UInt16} (h : Forward.Turn ev (.sending rid) call')
    (hcancel : ∀ i, ev ≠ .cancel i) : ∃ i res, ev = .head i res ∧ call' = .afterHead rid res := by
  cases h with
  | head => exact ⟨_, _, rfl, rfl⟩
  | drop hover => cases hover
  | gaveUp => exact absurd rfl (hcancel _)
  | cut => exact absurd rfl (hcancel _)

/-- The id of a call is that of its request. -/
theorem turn_rid (h : Forward.Turn ev call call') {rid : UInt16} (hrid : call'.rid? = some rid)
    (hf : call'.Fresh = false) : call.rid? = some rid := by
  cases h with
  | @head _ _ res => cases res <;> first | exact hrid | cases hrid
  | uploadLock => exact hrid
  | @upload _ _ _ res => cases res <;> first | exact hrid | cases hrid
  | respond => exact hrid
  | alive => cases hf
  | reconnected => cases hf
  | _ => cases hrid

/-- A call that has returned is done, and at most dropped. -/
theorem turn_returned {body : FCGIBody} (h : Forward.Turn ev (.returned body) call') :
    (∃ body', call' = .returned body') ∨ call' = .left := by
  cases h with
  | read => exact Or.inl ⟨_, rfl⟩
  | drop => exact Or.inr rfl
  | gaveUp => exact Or.inr rfl

theorem turn_gone (h : Forward.Turn ev call call') (hgone : call.Gone = true) :
    call'.Gone = true := by
  cases h with
  | drop => rfl
  | gaveUp => rfl
  | _ => cases hgone

/-- A call that is there stays, or takes a turn. -/
theorem call_next (hnext : self.next http ev = .ok (some (self', eff)))
    (hcall : self.calls[j]? = some call) : ∃ call', self'.calls[j]? = some call' ∧
      ((ev.call? ≠ some j ∧ call' = call) ∨
        (ev.call? = some j ∧ Forward.Turn ev call call')) := by
  obtain ⟨hlt, -⟩ := List.getElem?_eq_some_iff.mp hcall
  rcases next_turn hnext with ⟨rfl, hcalls⟩ | ⟨i, call₀, call₁, hev, hcall₀, hcalls, hturn⟩
  · refine ⟨call, by rw [hcalls, List.getElem?_append_left hlt, hcall], Or.inl ⟨?_, rfl⟩⟩
    exact fun h => by cases h
  · by_cases hij : i = j
    · subst hij
      cases hcall.symm.trans hcall₀
      exact ⟨call₁, by rw [hcalls, List.getElem?_set_self hlt], Or.inr ⟨hev, hturn⟩⟩
    · refine ⟨call, by rw [hcalls, List.getElem?_set_ne hij, hcall], Or.inl ⟨?_, rfl⟩⟩
      exact fun h => hij (Option.some.inj (hev.symm.trans h))

/-- A call has had its request from the insertion on. -/
theorem Slots.key_back {max : ℕ} (hslots : Slots max self) (hs : Stepped self ev self' eff)
    (hcall : self.calls[j]? = some call) (hcall' : self'.calls[j]? = some call')
    (hkey : call'.key? = some k) :
    call.key? = some k ∨ call = .checking ∨ call = .connecting := by
  obtain ⟨hlt, -⟩ := List.getElem?_eq_some_iff.mp hcall
  -- the call that takes the step, and the others
  have hset : ∀ {i : ℕ} {c : Forward}, self'.calls = self.calls.set i c →
      (i = j ∧ call' = c) ∨ call' = call := by
    intro i c hcalls
    rw [hcalls] at hcall'
    by_cases hij : i = j
    · subst hij
      rw [List.getElem?_set_self hlt] at hcall'
      exact Or.inl ⟨rfl, (Option.some.inj hcall').symm⟩
    · rw [List.getElem?_set_ne hij, hcall] at hcall'
      exact Or.inr (Option.some.inj hcall').symm
  cases hs with
  | acquired =>
    rw [List.getElem?_append_left hlt, hcall] at hcall'
    cases hcall'
    exact Or.inl hkey
  | moved _ hc hmoves =>
    rcases hset rfl with ⟨rfl, rfl⟩ | rfl
    · cases hcall.symm.trans hc
      rcases hmoves.key with rfl | hk
      · cases hkey
      · exact Or.inl (hk ▸ hkey)
    · exact Or.inl hkey
  | gaveUp =>
    rcases hset rfl with ⟨rfl, rfl⟩ | rfl
    · cases hkey
    · exact Or.inl hkey
  | refused =>
    rcases hset rfl with ⟨rfl, rfl⟩ | rfl
    · cases hkey
    · exact Or.inl hkey
  | dead =>
    rcases hset rfl with ⟨rfl, rfl⟩ | rfl
    · cases hkey
    · exact Or.inl hkey
  | alive hc =>
    rcases hset rfl with ⟨rfl, rfl⟩ | rfl
    · cases hcall.symm.trans hc
      exact Or.inr (Or.inl rfl)
    · exact Or.inl hkey
  | notified =>
    rcases hset rfl with ⟨rfl, rfl⟩ | rfl
    · cases hkey
    · exact Or.inl hkey
  | reconnected hc =>
    rcases hset rfl with ⟨rfl, rfl⟩ | rfl
    · cases hcall.symm.trans hc
      exact Or.inr (Or.inr rfl)
    · exact Or.inl hkey
  | @framed _ _ _ _ c c' body body' _ _ _ _ _ _ _ hc hpolls hd _ _ hserved =>
    rcases hset rfl with ⟨rfl, rfl⟩ | rfl
    · cases hcall.symm.trans hc
      rw [hpolls.key', FCGIBody.key?] at hkey
      split at hkey
      · cases hkey
      · left
        rw [hpolls.key_rid hd, ← hkey]
        cases hserved <;> rfl
    · exact Or.inl hkey
  | @putBack _ _ _ rid upload body bodydata rheaders mpxs status hc =>
    rcases hset rfl with ⟨rfl, rfl⟩ | rfl
    · cases hcall.symm.trans hc
      left
      rw [hslots.putting_key hcall, ← hkey]
      have hbody : body = ⟨rid.toNat - 1, false, false⟩ := (hslots.open_ _ _ hcall).2
      rw [hbody]
      rfl
    · exact Or.inl hkey
  | dropped =>
    rcases hset rfl with ⟨rfl, rfl⟩ | rfl
    · cases hkey
    · exact Or.inl hkey

end Connection

namespace Wire

variable {http : Http} {A : Allocator} {req : ℕ → Head} {self self' : Wire} {ev : Event}
  {evs : List Event} {rs : List WireRecord} {owners : UInt16 → List ℕ} {max j k n : ℕ}
  {old : List ℕ} {call : Forward}

/-- What the caller of the call at `j` has seen behind an event. -/
def see (self : Wire) (j k : ℕ) (seen : Connection.Seen) : Event → Connection.Seen
  | .quiet ev => self.con.see j k seen ev
  | _ => seen

/-! ## The request of a call -/

/-- What the connection does in a step that keeps the transport: nothing, or a call begins its
request, or anything else. -/
inductive Does (http : Http) (self : Wire) : Event → Wire → Prop
  | nothing {i} : Does http self (.skip i) self
  | begins {i stop rid res self'} (hcall : self.con.calls[i]? = some (.sending rid))
      (hcon : self.con.Step http (.head i res) self'.con) (hbegun : self'.begun = i :: self.begun) :
      Does http self (.head i stop) self'
  | goes {ev cev self'} (hcon : self.con.Step http cev self'.con)
      (hsee : ∀ j k seen, self.see j k seen ev = self.con.see j k seen cev)
      (hhead : ∀ i res, cev ≠ .head i res) (hcancel : ∀ i, cev ≠ .cancel i)
      (hloses : ¬ self.con.Loses cev) (hbegun : self'.begun = self.begun)
      (howners : ∀ owners, self.ownersAfter ev owners = owners) :
      Does http self ev self'

theorem not_loses_upload {con : Connection} {i : ℕ} {res : UploadResult} :
    ¬ con.Loses (.upload i res) := by
  rintro (⟨i, h⟩ | ⟨sock, cx, ⟨i, key, h⟩ | ⟨i, call, body, h, -⟩, -⟩)
  · cases h
  · cases h
  · cases h

theorem KeepStep.does (h : KeepStep http A req self ev self') (hacc : self.io.io.Accepting) :
    Does http self ev self' := by
  obtain ⟨hs, hev, hkeep⟩ := h
  cases next_proceeds hs hacc hev with
  | quiet hquiet hcancel hcon =>
    refine .goes hcon (fun _ _ _ => rfl) ?_ hcancel hkeep rfl fun _ => rfl
    rintro i res rfl
    cases hquiet
  | skipped => exact .nothing
  | connected => exact absurd trivial hkeep
  | head hcall _ _ _ _ hadv hbegun => exact .begins hcall hadv.step hbegun
  | chunk _ _ _ _ hadv hbegun =>
    exact .goes hadv.step (fun _ _ _ => rfl) (fun _ _ h => by cases h) (fun _ h => by cases h)
      not_loses_upload hbegun fun _ => rfl
  | short _ _ hadv hbegun =>
    exact .goes hadv.step (fun _ _ _ => rfl) (fun _ _ h => by cases h) (fun _ h => by cases h)
      not_loses_upload hbegun fun _ => rfl
  | last _ _ _ _ hadv hbegun =>
    exact .goes hadv.step (fun _ _ _ => rfl) (fun _ _ h => by cases h) (fun _ h => by cases h)
      not_loses_upload hbegun fun _ => rfl

/-- The call at `j`, which inserted its request at `k` when `old` were the calls with the id. -/
structure Attended (req : ℕ → Head) (max j k : ℕ) (old : List ℕ) (evs : List Event) (wire : Wire)
    (rs : List WireRecord) (owners : UInt16 → List ℕ) (call : Forward) : Prop where
  settled : Connection.Settled max wire.con
  accepting : wire.io.io.Accepting
  delivers : Delivers req evs wire rs owners
  accounted : Accounted req evs wire owners
  calls : wire.con.calls[j]? = some call
  fresh : call.Fresh = true → ∃ rid, call = .sending rid
  begun : call.Fresh = false → j ∈ wire.begun
  rid : ∀ rid, call.rid? = some rid → rid = Connection.ridOf k
  latest : call.key? = some k →
    owners (Connection.ridOf k) = if call.Fresh = true then old else j :: old

/-- While a request is in the table, no other is begun with its id. -/
theorem Attended.latest_next (hmax : max < 2 ^ 16)
    (h : Attended req max j k old evs self rs owners call)
    (hdoes : Does http self ev self') {call' : Forward}
    (hcall' : self'.con.calls[j]? = some call') (hkey : call.key? = some k) :
    self.ownersAfter ev owners (Connection.ridOf k) =
      if call'.Fresh = true then old else j :: old := by
  have hlatest := h.latest hkey
  cases hdoes with
  | nothing =>
    cases h.calls.symm.trans hcall'
    exact hlatest
  | goes hcon _ hhead hcancel _ _ howners =>
    rw [howners, hlatest]
    obtain ⟨eff, hnext⟩ := hcon
    obtain ⟨call₁, hcall₁, ⟨-, rfl⟩ | ⟨-, hturn⟩⟩ := Connection.call_next hnext h.calls
    · cases hcall₁.symm.trans hcall'
      rfl
    · cases hcall₁.symm.trans hcall'
      cases hf : call.Fresh with
      | true =>
        obtain ⟨rid, rfl⟩ := h.fresh hf
        obtain ⟨i, res, rfl, -⟩ := Connection.turn_sending hturn hcancel
        exact absurd rfl (hhead i res)
      | false => rw [Connection.turn_fresh hturn hf]
  | @begins i stop rid res _ hcalli hcon _ =>
    have hopen := h.settled.slots.open_ i _ hcalli
    have hkeyi := (hopen.key? rfl).2
    obtain ⟨eff, hnext⟩ := hcon
    rw [ownersAfter, hcalli]
    simp only
    by_cases hij : i = j
    · subst hij
      cases h.calls.symm.trans hcalli
      obtain ⟨call₁, hcall₁, ⟨hev, -⟩ | ⟨-, hturn⟩⟩ := Connection.call_next hnext h.calls
      · exact absurd rfl hev
      · cases hcall₁.symm.trans hcall'
        obtain ⟨i, res', -, rfl⟩ := Connection.turn_sending hturn (fun _ hc => by cases hc)
        obtain rfl : rid = Connection.ridOf k := h.rid rid rfl
        rw [Function.update_self, hlatest]
        cases res' <;> rfl
    · have hne : rid ≠ Connection.ridOf k := by
        rintro rfl
        obtain ⟨m, hm, -⟩ := h.settled.slots.owns j call k h.calls hkey
        have hlt := h.settled.slots.lt hm
        rw [Connection.toNat_ridOf (by omega), Nat.add_sub_cancel] at hkeyi
        exact hij (h.settled.slots.eq_of_key? h.calls hcalli hkey hkeyi)
      rw [Function.update_of_ne (Ne.symm hne), hlatest]
      obtain ⟨call₁, hcall₁, ⟨-, rfl⟩ | ⟨hev, -⟩⟩ := Connection.call_next hnext h.calls
      · cases hcall₁.symm.trans hcall'
        rfl
      · exact absurd (Option.some.inj hev) hij

theorem begun_mono (hdoes : Does http self ev self') {i : ℕ} (hi : i ∈ self.begun) :
    i ∈ self'.begun := by
  cases hdoes with
  | nothing => exact hi
  | begins _ _ hbegun => exact hbegun ▸ List.mem_cons_of_mem _ hi
  | goes _ _ _ _ _ hbegun => exact hbegun ▸ hi

/-- What the connection does, if anything. -/
theorem Does.con (hdoes : Does http self ev self') : (self'.con = self.con ∧
      ∀ j k seen, self.see j k seen ev = seen) ∨
    ∃ cev, self.con.Step http cev self'.con ∧ (∀ i, cev ≠ .cancel i) ∧ ¬ self.con.Loses cev ∧
      (∀ j k seen, self.see j k seen ev = self.con.see j k seen cev) ∧
      ∀ i res, cev = .head i res → i ∈ self'.begun := by
  cases hdoes with
  | nothing => exact Or.inl ⟨rfl, fun _ _ _ => rfl⟩
  | begins _ hcon hbegun =>
    refine Or.inr ⟨_, hcon, fun _ h => (by cases h), ?_, fun _ _ _ => rfl, fun i res h => ?_⟩
    · rintro (⟨i, h⟩ | ⟨sock, cx, ⟨i, key, h⟩ | ⟨i, call, body, h, -⟩, -⟩) <;> cases h
    · cases h
      exact hbegun ▸ List.mem_cons_self
  | goes hcon hsee hhead hcancel hloses =>
    exact Or.inr ⟨_, hcon, hcancel, hloses, hsee, fun i res h => absurd h (hhead i res)⟩

/-- No more of a body is sent than was announced. -/
theorem Attended.length_bodySent (h : Attended req max j k old evs self rs owners call) :
    (bodySent evs j).length ≤ (req j).len.getD 0 := by
  cases hf : call.Fresh with
  | true =>
    have hunbegun : self.con.Unbegun j := fun c hc => by
      cases h.calls.symm.trans hc
      exact hf
    rw [(h.accounted.unsent j hunbegun).2]
    exact Nat.zero_le _
  | false =>
    obtain ⟨id, hid⟩ := (h.delivers.begun j).mp (h.begun hf)
    obtain ⟨i, hi, hget⟩ := List.getElem_of_mem hid
    have hi' : i < (receivedOf id rs).length := (h.delivers.delivered id).length_eq ▸ hi
    have hdel := (List.forall₂_iff_get.mp (h.delivers.delivered id)).2 i hi hi'
    simp only [List.get_eq_getElem, hget] at hdel
    exact hdel.within

theorem Attended.step (hmax : max < 2 ^ 16) (h : Attended req max j k old evs self rs owners call)
    (hk : KeepStep http A req self ev self') : ∃ rs' call',
      Attended req max j k old (evs ++ [ev]) self' rs' (self.ownersAfter ev owners) call' := by
  have hdoes := hk.does h.accepting
  have hp := next_proceeds hk.1 h.accepting hk.2.1
  obtain ⟨rs', hdelivers, haccounted⟩ := h.delivers.step h.accounted h.settled.slots hp
  have hsettled := settled_step hmax h.settled hk.1
  suffices hcall : ∃ call', self'.con.calls[j]? = some call' ∧
      (call'.Fresh = true → ∃ rid, call' = .sending rid) ∧
      (call'.Fresh = false → j ∈ self'.begun) ∧
      (∀ rid, call'.rid? = some rid → rid = Connection.ridOf k) ∧
      (call'.key? = some k → call.key? = some k) by
    obtain ⟨call', hcall', hfresh, hbegun, hrid, hkey⟩ := hcall
    exact ⟨rs', call', hsettled, hp.accepting h.accepting, hdelivers, haccounted, hcall', hfresh,
      hbegun, hrid, fun hk' => h.latest_next hmax hdoes hcall' (hkey hk')⟩
  rcases hdoes.con with ⟨hcon, -⟩ | ⟨cev, ⟨eff, hnext⟩, hcancel, -, -, hhead⟩
  · exact ⟨call, hcon ▸ h.calls, h.fresh, fun hf => begun_mono hdoes (h.begun hf), h.rid, id⟩
  · obtain ⟨call', hcall', hturn⟩ := Connection.call_next hnext h.calls
    have hback : call'.key? = some k → call.key? = some k := by
      intro hk'
      rcases h.settled.slots.key_back (Connection.next_stepped hnext) h.calls hcall' hk' with
        hkey | rfl | rfl
      · exact hkey
      · obtain ⟨rid, hrid⟩ := h.fresh rfl
        cases hrid
      · obtain ⟨rid, hrid⟩ := h.fresh rfl
        cases hrid
    refine ⟨call', hcall', ?_, ?_, ?_, hback⟩
    all_goals
      rcases hturn with ⟨-, rfl⟩ | ⟨hev, hturn⟩
    · exact h.fresh
    · intro hf
      cases hfresh : call.Fresh with
      | true =>
        obtain ⟨rid, rfl⟩ := h.fresh hfresh
        obtain ⟨i, res, -, rfl⟩ := Connection.turn_sending hturn hcancel
        cases res <;> cases hf
      | false => rw [Connection.turn_fresh hturn hfresh] at hf; cases hf
    · exact fun hf => begun_mono hdoes (h.begun hf)
    · intro _
      cases hfresh : call.Fresh with
      | true =>
        obtain ⟨rid, rfl⟩ := h.fresh hfresh
        obtain ⟨i, res, rfl, -⟩ := Connection.turn_sending hturn hcancel
        obtain rfl := Option.some.inj hev
        exact hhead _ _ rfl
      | false => exact begun_mono hdoes (h.begun hfresh)
    · exact h.rid
    · intro rid hrid
      cases hfresh : call.Fresh with
      | true =>
        obtain ⟨rid', rfl⟩ := h.fresh hfresh
        obtain ⟨i, res, -, rfl⟩ := Connection.turn_sending hturn hcancel
        exact h.rid rid (Connection.turn_rid hturn hrid (by cases res <;> rfl))
      | false => exact h.rid rid (Connection.turn_rid hturn hrid (Connection.turn_fresh hturn hfresh))

/-! ## The answer to it -/

/-- When the calls with the id were `old` and each of their requests was answered, the records
`recs` behind that are the answer to the request of the call at `j`, or there are none for it. -/
theorem answer_of_serves {app : App} {id : UInt16} {log recs : List Record} {fresh : Bool}
    (hd : Delivers req evs self rs owners) (hserves : app.Serves self)
    (hlog : self.con.log = log ++ recs) (hid : reqNo id = some k)
    (hended : ∀ a ∈ answersTo id log, a.ended = true)
    (hlen : (answersTo id log).length = old.length)
    (howners : owners id = if fresh = true then old else j :: old) :
    ((recs.map (InnerConnection.stdOutOf k)).flatten = [] ∧
        ¬ ∃ rec ∈ recs, InnerConnection.EndOf k rec) ∨
      (fresh = false ∧ ∃ q a,
        Delivered (req j) (bodySent evs j) (self.con.uploads? j = some id) q ∧ app.Answers q a ∧
          a.stdout = (recs.map (InnerConnection.stdOutOf k)).flatten ∧
          ((∃ rec ∈ recs, InnerConnection.EndOf k rec) → a.ended = true)) := by
  obtain ⟨rs', hsent, hanswers⟩ := hserves
  obtain rfl : rs' = rs := encodeAll_inj (hsent.symm.trans hd.sent)
  obtain ⟨waiting, qs, hqs, hanswered⟩ := hanswers id
  obtain ⟨newer, hnewer, hout, hends⟩ := Answered.foldl_arrive hid hended recs
  have has : answersTo id self.con.log = newer ++ answersTo id log := by
    rw [answersTo, hlog, List.foldl_append]
    exact hnewer
  have hdel := hd.delivered id
  have hcount := hdel.length_eq
  have hcount' := hanswered.length_eq
  rw [hqs, List.length_append] at hcount
  rw [has, List.length_append] at hcount'
  cases newer with
  | nil =>
    left
    rw [← hout, ← hends]
    refine ⟨rfl, ?_⟩
    rintro ⟨a, ha, -⟩
    exact List.not_mem_nil ha
  | cons a newer =>
    right
    -- there is but one request without an answer
    cases fresh with
    | true =>
      rw [if_pos rfl] at howners
      rw [howners] at hcount
      rw [List.length_cons] at hcount'
      omega
    | false =>
      rw [if_neg Bool.false_ne_true] at howners
      rw [howners, List.length_cons] at hcount
      rw [List.length_cons] at hcount'
      obtain rfl : newer = [] := List.length_eq_zero_iff.mp (by omega)
      obtain rfl : waiting = [] := List.length_eq_zero_iff.mp (by omega)
      rw [has] at hanswered
      rw [howners, hqs] at hdel
      obtain ⟨q, qs', hq, -, hqs'⟩ := List.forall₂_cons_left_iff.mp hdel
      rw [List.nil_append] at hqs'
      subst hqs'
      obtain ⟨hqa, -⟩ := List.forall₂_cons.mp hanswered
      refine ⟨rfl, q, a, hq, hqa, ?_, fun he => ?_⟩
      · rw [← hout]
        simp [Answered.output]
      · obtain ⟨a', ha', hae⟩ := hends.mpr he
        rwa [List.mem_singleton.mp ha'] at hae

/-- So what came for a call that has not failed is a part of the page for its request. -/
theorem Attended.fits {app : App} {log recs : List Record} {data : Bytes}
    (h : Attended req max j k old evs self rs owners call) (hserves : app.Serves self)
    (hlog : self.con.log = log ++ recs) (hid : reqNo (Connection.ridOf k) = some k)
    (hended : ∀ a ∈ answersTo (Connection.ridOf k) log, a.ended = true)
    (hlen : (answersTo (Connection.ridOf k) log).length = old.length)
    (howners : owners (Connection.ridOf k) = if call.Fresh = true then old else j :: old)
    (hgone : call.Gone = false) (hpre : bodySent evs j <+: data)
    (hdata : data.length ≤ (req j).len.getD 0) :
    self.con.stdOutSince log.length k <+: app.page (req j).pairs data ∧
      (self.con.EndedSince log.length k →
        self.con.stdOutSince log.length k = app.page (req j).pairs data) := by
  rw [Connection.stdOutSince, Connection.EndedSince, hlog, List.drop_left]
  rcases answer_of_serves h.delivers hserves hlog hid hended hlen howners with
    ⟨hnil, hno⟩ | ⟨hfresh, q, a, hq, ha, hout, hend⟩
  · rw [hnil]
    exact ⟨List.nil_prefix, fun he => absurd he hno⟩
  -- the request is over, so it was uploaded
  have hover : ¬ self.con.uploads? j = some (Connection.ridOf k) := by
    intro hup
    have hphase := (hq.open_ hup).1
    rw [ha.whole] at hphase
    cases hphase
  have huploaded : call.Uploaded = true := by
    cases call with
    | exchanging rid upload resp =>
      cases upload with
      | done => rfl
      | _ =>
        refine absurd ?_ hover
        rw [Connection.uploads?, h.calls, ← h.rid rid rfl]
        rfl
    | returned => rfl
    | failed => cases hgone
    | left => cases hgone
    | _ => cases hfresh
  obtain ⟨hrejected, hfull⟩ := h.accounted.uploaded j call h.calls huploaded (h.begun hfresh)
  have hall : bodySent evs j = data :=
    hpre.eq_of_length (le_antisymm hpre.length_le (hfull ▸ hdata))
  have haborted : q.aborted = false := by
    rw [← Bool.not_eq_true, (hq.done hover).2, hrejected, hfull]
    simp
  obtain ⟨hpart, hwhole⟩ := ha.part haborted _ (hq.pairs hrejected)
  rw [hq.stdin, hall, hout] at hpart hwhole
  exact ⟨hpart, fun he => hwhole (hend he)⟩

/-- When a request is inserted, all requests with its id were answered. -/
theorem attended_start {maxReqPerCon : UInt16} {answer : ℕ → WriteAnswer} {app : App}
    (hrun : Run (KeepStep http A req) (connect maxReqPerCon answer) evs self)
    (hacc : (Transport.new answer).Accepting) (hins : self.con.Inserted j k)
    (hserves : app.Serves self) : ∃ rs owners,
    Attended req maxReqPerCon.toNat j k (owners (Connection.ridOf k)) evs self rs owners
      (.sending (Connection.ridOf k)) ∧ reqNo (Connection.ridOf k) = some k ∧
    (∀ a ∈ answersTo (Connection.ridOf k) self.con.log, a.ended = true) ∧
    (answersTo (Connection.ridOf k) self.con.log).length =
      (owners (Connection.ridOf k)).length := by
  obtain ⟨rs, hloaded⟩ := loaded_run hrun hacc
  obtain ⟨rs', owners, hdelivers, haccounted⟩ := accounted_run (hrun.mono fun _ _ _ h => h.1) hacc
    (hrun.forall_mem fun _ _ _ h => h.2.1)
  obtain rfl : rs' = rs := encodeAll_inj (hdelivers.sent.symm.trans hloaded.sent)
  have hslots := hloaded.settled.slots
  have hlt := hslots.lt hins.entry
  have hmax := maxReqPerCon.toNat_lt
  obtain ⟨⟨rid, hcall⟩, hentry⟩ := id hins
  obtain ⟨hne, hkey⟩ := (hslots.open_ j _ hcall).key? rfl
  obtain ⟨m, hq, hp, -⟩ := hslots.owns j _ _ hcall hkey
  have hk : rid.toNat - 1 = k := hslots.unique _ _ m (.new j) hq hentry hp
  have hrid : rid = Connection.ridOf k := by rw [← hk, Connection.ridOf_pred hne]
  subst hrid
  refine ⟨rs', owners, ⟨hloaded.settled, hloaded.accepting, hdelivers, haccounted, hcall,
    fun _ => ⟨_, rfl⟩, fun hf => (by cases hf), fun rid h => (Option.some.inj h).symm,
    fun _ => rfl⟩, reqNo_eq_some.mpr (Connection.toNat_ridOf (by omega)), ?_⟩
  -- as many requests were begun as answers ended
  have hpending : 0 < self.con.pendingWith (Connection.ridOf k) :=
    List.countP_pos_iff.mpr ⟨_, List.mem_of_getElem? hcall, by simp⟩
  have hbegun :
      begunWith (Connection.ridOf k) rs' ≤ endedWith (Connection.ridOf k) self.con.log := by
    rcases hloaded.budget (Connection.ridOf k) with hle | ⟨hle, -⟩ <;> omega
  obtain ⟨rs'', hsent, hanswers⟩ := hserves
  obtain rfl : rs'' = rs' := encodeAll_inj (hsent.symm.trans hdelivers.sent)
  obtain ⟨waiting, qs, hqs, hanswered⟩ := hanswers (Connection.ridOf k)
  have hlen := hanswered.length_eq
  have htotal := length_receivedOf (Connection.ridOf k) rs''
  have howners := (hdelivers.delivered (Connection.ridOf k)).length_eq
  have hcount := countP_answersTo (Connection.ridOf k) self.con.log
  have hle := List.countP_le_length (p := Answered.ended)
    (l := answersTo (Connection.ridOf k) self.con.log)
  rw [hqs, List.length_append] at htotal
  rw [hqs, List.length_append] at howners
  exact ⟨List.countP_eq_length.mp (by omega), by omega⟩

/-- The connection behind a run of the whole is that of a run of its own. -/
theorem con_run {maxReqPerCon : UInt16} {answer : ℕ → WriteAnswer}
    (hrun : Runs http A req maxReqPerCon answer evs self) :
    ∃ cevs, Connection.Runs http maxReqPerCon cevs self.con := by
  induction hrun with
  | nil => exact ⟨[], .nil⟩
  | snoc _ hs ih =>
    obtain ⟨cevs, hcon⟩ := ih
    rcases (next_stepped hs).con with heq | ⟨cev, hstep⟩
    · exact ⟨cevs, heq ▸ hcon⟩
    · exact ⟨_, .snoc hcon hstep⟩

end Wire

end AsyncFcgi
