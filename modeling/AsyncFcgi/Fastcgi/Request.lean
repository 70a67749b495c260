import AsyncFcgi.Fastcgi.Record

/-!
# The records of a request

What the records of one request id have to look like on a transport connection, from the side of
the web server: BEGIN_REQUEST, the stream PARAMS, the stream STDIN; both streams end with a record
without content, and ABORT_REQUEST ends the request early.

* `WellOrdered`: the records from one BEGIN_REQUEST to the next.
* `Phase.next`: the same, one record after the other.
* `wellOrdered_of_run`: what is read to its end in phases is well ordered.
-/

namespace AsyncFcgi

namespace WireRecord

/-- A record of a stream, with content. -/
def Carries (rtype : RecordType) (r : WireRecord) : Prop := r.rtype = rtype ∧ r.content ≠ []

/-- The end of a stream. -/
def Closes (rtype : RecordType) (r : WireRecord) : Prop := r.rtype = rtype ∧ r.content = []

/-- The records of a whole request behind its BEGIN_REQUEST: PARAMS and ABORT_REQUEST, or PARAMS,
its end, STDIN, and its end or ABORT_REQUEST. -/
def WholeRequest (rs : List WireRecord) : Prop :=
  (∃ params last, rs = params ++ [last] ∧ (∀ r ∈ params, Carries .params r) ∧
    last.rtype = .abortRequest) ∨
  ∃ params stop stdin last, rs = params ++ stop :: (stdin ++ [last]) ∧
    (∀ r ∈ params, Carries .params r) ∧ Closes .params stop ∧ (∀ r ∈ stdin, Carries .stdIn r) ∧
    (Closes .stdIn last ∨ last.rtype = .abortRequest)

/-- From each BEGIN_REQUEST to the next, and to the end, the records are the beginning of a whole
request; up to a next BEGIN_REQUEST they are all of it. -/
def WellOrdered (rs : List WireRecord) : Prop :=
  ∀ pre b seq post, rs = pre ++ b :: (seq ++ post) → b.rtype = .beginRequest →
    (∀ r ∈ seq, r.rtype ≠ .beginRequest) →
    (∃ more, WholeRequest (seq ++ more)) ∧
      ∀ b' post', post = b' :: post' → b'.rtype = .beginRequest → WholeRequest seq

/-- The records with an id. -/
def ofId (id : UInt16) (rs : List WireRecord) : List WireRecord :=
  rs.filter fun r => r.requestId = id

@[simp] theorem ofId_append (id : UInt16) (rs rs' : List WireRecord) :
    ofId id (rs ++ rs') = ofId id rs ++ ofId id rs' :=
  List.filter_append ..

theorem ofId_eq_self {id : UInt16} {rs : List WireRecord} (h : ∀ r ∈ rs, r.requestId = id) :
    ofId id rs = rs :=
  List.filter_eq_self.mpr fun r hr => decide_eq_true (h r hr)

theorem ofId_eq_nil {id id' : UInt16} {rs : List WireRecord} (h : ∀ r ∈ rs, r.requestId = id)
    (hne : id ≠ id') : ofId id' rs = [] :=
  List.filter_eq_nil_iff.mpr fun r hr => by simp [h r hr, hne]

end WireRecord

open WireRecord

/-! ## Phases -/

/-- Where the records of an id are: in front of the first BEGIN_REQUEST, in one of the streams, or
behind a whole request. -/
inductive Phase
  | stray
  | params
  | stdIn
  | over
  deriving DecidableEq, Repr

namespace Phase

/-- The phase behind a record; `none` if it must not be there. -/
def next : Phase → WireRecord → Option Phase
  | .stray, r => if r.rtype = .beginRequest then some .params else some .stray
  | .params, r =>
    if r.rtype = .params then if r.content = [] then some .stdIn else some .params
    else if r.rtype = .abortRequest then some .over
    else none
  | .stdIn, r =>
    if r.rtype = .stdIn then if r.content = [] then some .over else some .stdIn
    else if r.rtype = .abortRequest then some .over
    else none
  | .over, r => if r.rtype = .beginRequest then some .params else none

/-- The phase behind some records. -/
def run (phase : Phase) (rs : List WireRecord) : Option Phase := rs.foldlM next phase

@[simp] theorem run_nil (phase : Phase) : phase.run [] = some phase := rfl

@[simp] theorem run_cons (phase : Phase) (r : WireRecord) (rs : List WireRecord) :
    phase.run (r :: rs) = (phase.next r).bind fun phase => phase.run rs := rfl

theorem run_append (phase : Phase) (rs rs' : List WireRecord) :
    phase.run (rs ++ rs') = (phase.run rs).bind fun phase => phase.run rs' := by
  rw [run, List.foldlM_append]
  rfl

variable {phase phase' : Phase} {r : WireRecord} {rs : List WireRecord}

theorem next_begin (hr : r.rtype = .beginRequest) (h : phase.next r = some phase') :
    phase' = .params ∧ (phase = .stray ∨ phase = .over) := by
  cases phase <;> simp only [next, hr, if_true, reduceCtorEq, if_false] at h <;> cases h <;> simp

theorem run_carries {rtype : RecordType} (hphase : ∀ r, Carries rtype r → phase.next r = some phase)
    (h : ∀ r ∈ rs, Carries rtype r) : phase.run rs = some phase := by
  induction rs with
  | nil => rfl
  | cons r rs ih =>
    rw [run_cons, hphase r (h r List.mem_cons_self), Option.bind_some]
    exact ih fun r' hr' => h r' (List.mem_cons_of_mem _ hr')

theorem next_stray {rtype : RecordType} (hr : r.rtype = rtype) (hno : rtype ≠ .beginRequest) :
    stray.next r = some .stray := by
  rw [next, if_neg (hr ▸ hno)]

theorem next_params (h : Carries .params r) : params.next r = some .params := by
  rw [next, if_pos h.1, if_neg h.2]

theorem next_stdIn (h : Carries .stdIn r) : stdIn.next r = some .stdIn := by
  rw [next, if_pos h.1, if_neg h.2]

/-- Behind a whole request only a BEGIN_REQUEST may follow. -/
theorem run_over (hno : ∀ r ∈ rs, r.rtype ≠ .beginRequest) (h : over.run rs = some phase) :
    rs = [] ∧ phase = .over := by
  cases rs with
  | nil => exact ⟨rfl, (Option.some.inj h).symm⟩
  | cons r rs =>
    rw [run_cons, next, if_neg (hno r List.mem_cons_self)] at h
    cases h

/-- The records behind the end of PARAMS. -/
theorem run_stdIn (hno : ∀ r ∈ rs, r.rtype ≠ .beginRequest) (h : stdIn.run rs = some phase) :
    (phase = .stdIn ∧ ∀ r ∈ rs, Carries .stdIn r) ∨
      (phase = .over ∧ ∃ stdin last, rs = stdin ++ [last] ∧ (∀ r ∈ stdin, Carries .stdIn r) ∧
        (Closes .stdIn last ∨ last.rtype = .abortRequest)) := by
  induction rs with
  | nil => exact Or.inl ⟨(Option.some.inj h).symm, nofun⟩
  | cons r rs ih =>
    have hno' : ∀ r ∈ rs, r.rtype ≠ .beginRequest := fun r' hr' => hno r' (List.mem_cons_of_mem _ hr')
    rw [run_cons, next] at h
    split at h
    · rename_i hr
      split at h
      · rename_i hempty
        obtain ⟨rfl, rfl⟩ := run_over hno' h
        exact Or.inr ⟨rfl, [], r, rfl, nofun, Or.inl ⟨hr, hempty⟩⟩
      · rename_i hcontent
        rcases ih hno' h with ⟨hphase, hall⟩ | ⟨hphase, stdin, last, rfl, hall, hlast⟩
        · exact Or.inl ⟨hphase, List.forall_mem_cons.mpr ⟨⟨hr, hcontent⟩, hall⟩⟩
        · exact Or.inr ⟨hphase, r :: stdin, last, rfl,
            List.forall_mem_cons.mpr ⟨⟨hr, hcontent⟩, hall⟩, hlast⟩
    · split at h
      · rename_i hr
        obtain ⟨rfl, rfl⟩ := run_over hno' h
        exact Or.inr ⟨rfl, [], r, rfl, nofun, Or.inr hr⟩
      · cases h

/-- The records behind a BEGIN_REQUEST: all PARAMS, or some of STDIN too, or a whole request. -/
theorem run_params (hno : ∀ r ∈ rs, r.rtype ≠ .beginRequest) (h : params.run rs = some phase) :
    (phase = .params ∧ ∀ r ∈ rs, Carries .params r) ∨
      (phase = .stdIn ∧ ∃ params stop stdin, rs = params ++ stop :: stdin ∧
        (∀ r ∈ params, Carries .params r) ∧ Closes .params stop ∧
        ∀ r ∈ stdin, Carries .stdIn r) ∨
      (phase = .over ∧ WholeRequest rs) := by
  induction rs with
  | nil => exact Or.inl ⟨(Option.some.inj h).symm, nofun⟩
  | cons r rs ih =>
    have hno' : ∀ r ∈ rs, r.rtype ≠ .beginRequest := fun r' hr' => hno r' (List.mem_cons_of_mem _ hr')
    rw [run_cons, next] at h
    split at h
    · rename_i hr
      split at h
      · rename_i hempty
        rcases run_stdIn hno' h with ⟨hphase, hall⟩ | ⟨hphase, stdin, last, rfl, hall, hlast⟩
        · exact Or.inr (Or.inl ⟨hphase, [], r, rs, rfl, nofun, ⟨hr, hempty⟩, hall⟩)
        · exact Or.inr (Or.inr ⟨hphase, Or.inr ⟨[], r, stdin, last, rfl, nofun, ⟨hr, hempty⟩,
            hall, hlast⟩⟩)
      · rename_i hcontent
        have hcons : ∀ {params : List WireRecord}, (∀ r ∈ params, Carries .params r) →
            ∀ r' ∈ r :: params, Carries .params r' := fun hall =>
          List.forall_mem_cons.mpr ⟨⟨hr, hcontent⟩, hall⟩
        rcases ih hno' h with ⟨hphase, hall⟩ | ⟨hphase, params, stop, stdin, rfl, hall, hstop, hin⟩ |
          ⟨hphase, ⟨params, last, rfl, hall, hlast⟩ |
            ⟨params, stop, stdin, last, rfl, hall, hstop, hin, hlast⟩⟩
        · exact Or.inl ⟨hphase, hcons hall⟩
        · exact Or.inr (Or.inl ⟨hphase, r :: params, stop, stdin, rfl, hcons hall, hstop, hin⟩)
        · exact Or.inr (Or.inr ⟨hphase, Or.inl ⟨r :: params, last, rfl, hcons hall, hlast⟩⟩)
        · exact Or.inr (Or.inr ⟨hphase, Or.inr ⟨r :: params, stop, stdin, last, rfl, hcons hall,
            hstop, hin, hlast⟩⟩)
    · split at h
      · rename_i hr
        obtain ⟨rfl, rfl⟩ := run_over hno' h
        exact Or.inr (Or.inr ⟨rfl, Or.inl ⟨[], r, rfl, nofun, hr⟩⟩)
      · cases h

end Phase

theorem exists_abort : ∃ r : WireRecord, r.rtype = .abortRequest :=
  ⟨⟨Header.version1, .abortRequest, 0, 0, [], [], by decide, by decide⟩, rfl⟩

/-- **Records that are read to their end in phases are well ordered.** -/
theorem wellOrdered_of_run {rs : List WireRecord} {phase : Phase}
    (h : Phase.stray.run rs = some phase) : WellOrdered rs := by
  intro pre b seq post hrs hb hno
  subst hrs
  rw [Phase.run_append] at h
  obtain ⟨phase₁, -, h⟩ := Option.bind_eq_some_iff.mp h
  rw [Phase.run_cons] at h
  obtain ⟨phase₂, hnext, h⟩ := Option.bind_eq_some_iff.mp h
  obtain ⟨rfl, -⟩ := Phase.next_begin hb hnext
  rw [Phase.run_append] at h
  obtain ⟨phase₃, hseq, hpost⟩ := Option.bind_eq_some_iff.mp h
  obtain ⟨last, hlast⟩ := exists_abort
  have hcases := Phase.run_params hno hseq
  refine ⟨?_, fun b' post' hp hb' => ?_⟩
  · rcases hcases with ⟨-, hall⟩ | ⟨-, params, stop, stdin, rfl, hall, hstop, hin⟩ | ⟨-, hwhole⟩
    · exact ⟨[last], Or.inl ⟨seq, last, rfl, hall, hlast⟩⟩
    · exact ⟨[last], Or.inr ⟨params, stop, stdin, last, by simp, hall, hstop, hin, Or.inr hlast⟩⟩
    · exact ⟨[], by rwa [List.append_nil]⟩
  · subst hp
    rw [Phase.run_cons] at hpost
    obtain ⟨phase₄, hnext', -⟩ := Option.bind_eq_some_iff.mp hpost
    obtain ⟨-, hend⟩ := Phase.next_begin hb' hnext'
    rcases hcases with ⟨rfl, -⟩ | ⟨rfl, -⟩ | ⟨-, hwhole⟩
    · rcases hend with hend | hend <;> cases hend
    · rcases hend with hend | hend <;> cases hend
    · exact hwhole

end AsyncFcgi
