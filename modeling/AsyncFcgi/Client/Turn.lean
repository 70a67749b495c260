import AsyncFcgi.Client.Step

/-!
# Where a call of `forward` goes (`src/client/connection.rs`)

The control flow of `forward`, without the connection: which place a call leaves at an event,
and which it reaches.

* `next_turn`: every step of a connection is a turn of one call, or a new call.
* `uploads_next`: which calls are in the middle of their upload.
-/

namespace AsyncFcgi

open Lib

/-- The id of a call that is in the middle of its upload. -/
def Forward.uploads? : Forward → Option UInt16
  | .exchanging rid .idle _ | .exchanging rid .locked _ => some rid
  | _ => none

/-- The call has not begun its request. -/
def Forward.Fresh : Forward → Bool
  | .waiting | .checking | .shutting | .connecting | .sending _ => true
  | _ => false

/-- A call goes on at an event. -/
inductive Forward.Turn : Connection.Event → Forward → Forward → Prop
  | lock {j} : Turn (.lock j) .waiting .checking
  | refused {j sock cx key} : Turn (.check j sock cx key) .checking .left
  | dead {j sock cx key} : Turn (.check j sock cx key) .checking .shutting
  | alive {j sock cx key} : Turn (.check j sock cx key) .checking (.sending (Connection.ridOf key))
  | shutdown {j} : Turn (.shutdown j) .shutting .connecting
  | reconnected {j key} : Turn (.connect j true key) .connecting (.sending (Connection.ridOf key))
  | unreachable {j key} : Turn (.connect j false key) .connecting .left
  | head {j rid res} : Turn (.head j res) (.sending rid) (afterHead rid res)
  | uploadLock {j rid resp} :
      Turn (.uploadLock j) (.exchanging rid .idle resp) (.exchanging rid .locked resp)
  | upload {j rid resp res} :
      Turn (.upload j res) (.exchanging rid .locked resp) (afterUpload rid resp res)
  | respond {j sock cx rid upload resp resp'} :
      Turn (.respond j sock cx) (.exchanging rid upload resp) (.exchanging rid upload (some resp'))
  | finish {j rid resp body} : Turn (.finish j) (.exchanging rid .done resp) (.returned body)
  | read {j sock cx body body'} : Turn (.read j sock cx) (.returned body) (.returned body')
  | drop {j call} (hover : call.Over) : Turn (.drop j) call .left
  | gaveUp {j call} (hholds : call.HoldsPermit = true) : Turn (.cancel j) call .left
  | cut {j rid} : Turn (.cancel j) (.sending rid) .left
  | abandoned {j rid upload resp} : Turn (.cancel j) (.exchanging rid upload resp) (.failed rid resp)

namespace Connection

variable {http : Http} {self self' : Connection} {ev : Event} {eff : Effects}

@[simp] theorem hearBody_calls (self : Connection) (body : FCGIBody) (j : ℕ) (sock : SocketRead)
    (cx : Waker) : (self.hearBody body j sock cx).calls = self.calls := by
  unfold hearBody
  split <;> rfl

theorem next_turn (h : self.next http ev = .ok (some (self', eff))) :
    (ev = .acquire ∧ self'.calls = self.calls ++ [.waiting]) ∨
      ∃ j call call', ev.call? = some j ∧ self.calls[j]? = some call ∧
        self'.calls = self.calls.set j call' ∧ Forward.Turn ev call call' := by
  cases next_branch h with
  | acquire => exact Or.inl ⟨rfl, rfl⟩
  | lock hcall => exact Or.inr ⟨_, _, _, rfl, hcall, rfl, .lock⟩
  | check hcall hcheck =>
    unfold nextCheck at hcheck
    obtain ⟨⟨res, inner, eff₁⟩, -, hcheck⟩ := bind_eq_ok.mp hcheck
    simp only at hcheck
    split at hcheck
    · cases hcheck
      exact Or.inr ⟨_, _, _, rfl, hcall, rfl, .refused⟩
    · cases hcheck
      exact Or.inr ⟨_, _, _, rfl, hcall, rfl, .dead⟩
    · split at hcheck
      · cases hcheck
        exact Or.inr ⟨_, _, _, rfl, hcall, rfl, .alive⟩
      · cases hcheck
  | shutdown hcall => exact Or.inr ⟨_, _, _, rfl, hcall, rfl, .shutdown⟩
  | reconnect hcall => exact Or.inr ⟨_, _, _, rfl, hcall, rfl, .reconnected⟩
  | unreachable hcall => exact Or.inr ⟨_, _, _, rfl, hcall, rfl, .unreachable⟩
  | head hcall => exact Or.inr ⟨_, _, _, rfl, hcall, rfl, .head⟩
  | uploadLock hcall => exact Or.inr ⟨_, _, _, rfl, hcall, rfl, .uploadLock⟩
  | upload hcall => exact Or.inr ⟨_, _, _, rfl, hcall, rfl, .upload⟩
  | @respond j sock cx rid upload resp _ _ hcall hrespond =>
    obtain ⟨resp₀, resp', inner, -, -, rfl⟩ := nextRespond_ok hrespond
    refine Or.inr ⟨j, _, .exchanging rid upload (some resp'), rfl, hcall, ?_, .respond⟩
    cases resp₀ with
    | reading body buf rheaders => simp only [move, hearBody_calls]
    | _ => rfl
  | finish hcall => exact Or.inr ⟨_, _, _, rfl, hcall, rfl, .finish⟩
  | @read j sock cx body _ _ hcall hread =>
    obtain ⟨res, body', inner, -, rfl⟩ := nextRead_ok hread
    exact Or.inr ⟨j, _, .returned body', rfl, hcall, by simp only [move, hearBody_calls], .read⟩
  | drop hcall hover => exact Or.inr ⟨_, _, _, rfl, hcall, rfl, .drop hover⟩
  | dropUnpolled hcall => exact Or.inr ⟨_, _, _, rfl, hcall, rfl, .drop .failed⟩
  | cancelWaiting hcall => exact Or.inr ⟨_, _, _, rfl, hcall, rfl, .gaveUp rfl⟩
  | cancelLocked hcall hholds => exact Or.inr ⟨_, _, _, rfl, hcall, rfl, .gaveUp hholds⟩
  | cancelSending hcall => exact Or.inr ⟨_, _, _, rfl, hcall, rfl, .cut⟩
  | cancelUpload hcall => exact Or.inr ⟨_, _, _, rfl, hcall, rfl, .abandoned⟩
  | cancelExchange hcall => exact Or.inr ⟨_, _, _, rfl, hcall, rfl, .abandoned⟩

/-! ## The uploads -/

/-- The id of the call at `j`, if it is in the middle of its upload. -/
def uploads? (self : Connection) (j : ℕ) : Option UInt16 := self.calls[j]?.bind Forward.uploads?

/-- The call at `j` has not begun its request, or is not there yet. -/
def Unbegun (self : Connection) (j : ℕ) : Prop :=
  ∀ call, self.calls[j]? = some call → call.Fresh = true

theorem turn_uploads_back {call call' : Forward} (h : Forward.Turn ev call call')
    (hhead : ∀ j res, ev ≠ .head j res) {rid : UInt16} (hrid : call'.uploads? = some rid) :
    call.uploads? = some rid := by
  cases h with
  | head => exact absurd rfl (hhead _ _)
  | uploadLock => exact hrid
  | @upload _ _ _ res => cases res <;> first | exact hrid | cases hrid
  | @respond _ _ _ _ upload => cases upload <;> exact hrid
  | _ => cases hrid

theorem turn_uploads {call call' : Forward} (h : Forward.Turn ev call call')
    (hhead : ∀ j res, ev ≠ .head j res) (hupload : ∀ j res, ev ≠ .upload j res)
    (hcancel : ∀ j, ev ≠ .cancel j) : call'.uploads? = call.uploads? := by
  cases h with
  | head => exact absurd rfl (hhead _ _)
  | upload => exact absurd rfl (hupload _ _)
  | gaveUp => exact absurd rfl (hcancel _)
  | cut => exact absurd rfl (hcancel _)
  | abandoned => exact absurd rfl (hcancel _)
  | @respond _ _ _ _ upload => cases upload <;> rfl
  | drop hover => cases hover <;> rfl
  | _ => rfl

theorem turn_fresh_back {call call' : Forward} (h : Forward.Turn ev call call')
    (hfresh : call'.Fresh = true) : call.Fresh = true := by
  cases h with
  | @head _ _ res => rfl
  | @upload _ _ _ res => cases res <;> cases hfresh
  | _ => first | rfl | cases hfresh

/-- Another call uploads as before. -/
theorem uploads_other {i : ℕ} (h : self.next http ev = .ok (some (self', eff)))
    (hother : ev.call? ≠ some i) : self'.uploads? i = self.uploads? i := by
  rcases next_turn h with ⟨-, hcalls⟩ | ⟨j, call, call', hev, -, hcalls, -⟩
  · rw [uploads?, uploads?, hcalls, List.getElem?_append]
    split
    · rfl
    · rename_i hlt
      rw [List.getElem?_eq_none (Nat.not_lt.mp hlt)]
      cases hget : [Forward.waiting][i - self.calls.length]? with
      | none => rfl
      | some call =>
        rw [List.mem_singleton.mp (List.mem_of_getElem? hget)]
        rfl
  · have hij : j ≠ i := fun hij => hother (hij ▸ hev)
    rw [uploads?, uploads?, hcalls, List.getElem?_set_ne hij]

/-- A call uploads behind the head of its request. -/
theorem uploads_back {i : ℕ} {rid : UInt16} (h : self.next http ev = .ok (some (self', eff)))
    (hhead : ∀ j res, ev ≠ .head j res) (hrid : self'.uploads? i = some rid) :
    self.uploads? i = some rid := by
  by_cases hev : ev.call? = some i
  · rcases next_turn h with ⟨rfl, -⟩ | ⟨j, call, call', hev', hcall, hcalls, hturn⟩
    · cases hev
    · obtain rfl : i = j := Option.some.inj (hev.symm.trans hev')
      rw [uploads?, hcalls, List.getElem?_set_self (List.getElem?_eq_some_iff.mp hcall).1] at hrid
      rw [uploads?, hcall]
      exact turn_uploads_back hturn hhead hrid
  · rwa [uploads_other h hev] at hrid

/-- Only the head, an upload and the drop of a call change what is uploaded. -/
theorem uploads_next (h : self.next http ev = .ok (some (self', eff)))
    (hhead : ∀ j res, ev ≠ .head j res) (hupload : ∀ j res, ev ≠ .upload j res)
    (hcancel : ∀ j, ev ≠ .cancel j) (i : ℕ) : self'.uploads? i = self.uploads? i := by
  by_cases hev : ev.call? = some i
  · rcases next_turn h with ⟨rfl, -⟩ | ⟨j, call, call', hev', hcall, hcalls, hturn⟩
    · cases hev
    · obtain rfl : i = j := Option.some.inj (hev.symm.trans hev')
      rw [uploads?, uploads?, hcalls,
        List.getElem?_set_self (List.getElem?_eq_some_iff.mp hcall).1, hcall]
      exact turn_uploads hturn hhead hupload hcancel
  · exact uploads_other h hev

/-- A call that has not begun its request had not. -/
theorem Unbegun.back {i : ℕ} (h : self.next http ev = .ok (some (self', eff)))
    (hfresh : self'.Unbegun i) : self.Unbegun i := by
  intro call hcall
  obtain ⟨hlt, -⟩ := List.getElem?_eq_some_iff.mp hcall
  rcases next_turn h with ⟨-, hcalls⟩ | ⟨j, call₀, call', -, hcall₀, hcalls, hturn⟩
  · exact hfresh call (by rw [hcalls, List.getElem?_append_left hlt, hcall])
  · by_cases hij : j = i
    · subst hij
      cases hcall.symm.trans hcall₀
      exact turn_fresh_back hturn (hfresh call' (by rw [hcalls, List.getElem?_set_self hlt]))
    · exact hfresh call (by rw [hcalls, List.getElem?_set_ne hij, hcall])

end Connection

end AsyncFcgi
