import AsyncFcgi.Codec.KvStream
import AsyncFcgi.Fastcgi.RoundTrip

/-!
# Capability negotiation (`src/client/con_pool.rs`)

`ConPool::new_with_strategy` asks the application for `MAX_CONNS`, `MAX_REQS` and `MPXS_CONNS`
and goes through the records of the answer, and through the pairs of each of them. `NVDrain`
parses a pair when the loop asks for it, so what is behind a `break` is never looked at.

* `parseInt`: the digits of `u8` and `u16`.
* `negotiate_carry`: the loop over pairs of one byte lengths, without bytes.
* `orderIndependent_iff`: the outcome depends on the pairs alone, as it should, exactly if there
  is nothing for the `break` to skip or to let through.
-/

namespace AsyncFcgi

open Lib

/-- `MAX_CONNS` (`src/fastcgi.rs`, line 221). -/
def maxConns : Bytes := [77, 65, 88, 95, 67, 79, 78, 78, 83]

/-- `MAX_REQS` (`src/fastcgi.rs`, line 227). -/
def maxReqs : Bytes := [77, 65, 88, 95, 82, 69, 81, 83]

/-- `MPXS_CONNS` (`src/fastcgi.rs`, line 233). -/
def mpxsConns : Bytes := [77, 80, 88, 83, 95, 67, 79, 78, 78, 83]

/-- The digits of `from_str`, behind `acc`; a number above `max` is an error. -/
def parseDigits (max acc : ℕ) : Bytes → Option ℕ
  | [] => some acc
  | b :: bytes =>
    if 48 ≤ b.toNat ∧ b.toNat ≤ 57 then
      let acc := acc * 10 + (b.toNat - 48)
      if acc ≤ max then parseDigits max acc bytes else none
    else none

/-- `parse_int` (lines 151–158) for an unsigned type up to `max`: digits, behind at most one `+`.
What is not UTF-8 has a byte that is no digit. -/
def parseInt (max : ℕ) (bytes : Bytes) : Option ℕ :=
  let digits := if bytes.head? = some 43 then bytes.tail else bytes
  if digits = [] then none else parseDigits max 0 digits

/-- The variables of the negotiation, `max_cons` and `max_req_per_con`. -/
structure Capabilities where
  maxCons : UInt8
  maxReqPerCon : UInt16
  deriving DecidableEq, Repr

namespace Capabilities

/-- Their values before the loop (lines 80–81). -/
def initial : Capabilities := ⟨1, 1⟩

/-- The body of the inner loop (lines 85–103): the variables, and whether it is left. -/
def see (self : Capabilities) (kv : NameValuePair) : Capabilities × Bool :=
  if kv.nameData = maxConns then
    match parseInt 0xff kv.valueData with
    | some v => ({ self with maxCons := UInt8.ofNat v }, false)
    | none => (self, false)
  else if kv.nameData = maxReqs then
    match parseInt 0xffff kv.valueData with
    | some v => ({ self with maxReqPerCon := UInt16.ofNat v }, false)
    | none => (self, false)
  else if kv.nameData = mpxsConns then
    if kv.valueData = [48] then ({ self with maxReqPerCon := 1 }, true) else (self, false)
  else (self, false)

/-- The body of the outer loop (lines 82–106). -/
def seeRecord (self : Capabilities) (rec : Record) : Except Fault Capabilities :=
  match rec.body with
  | .getValuesResult kvs => do
    let data ← kvs.drain
    NVDrain.reader.drainUntil see self () data
  | _ => .ok self

end Capabilities

/-- The loop over the answer (lines 80–106). -/
def negotiate (recs : List Record) : Except Fault Capabilities :=
  recs.foldlM Capabilities.seeRecord .initial

/-! ## The loop, pair by pair -/

theorem parseDigits_le {max : ℕ} (bytes : Bytes) :
    ∀ {acc v : ℕ}, acc ≤ max → parseDigits max acc bytes = some v → v ≤ max := by
  induction bytes with
  | nil =>
    intro acc v hacc h
    rw [← Option.some.inj h]
    exact hacc
  | cons b bytes ih =>
    intro acc v hacc h
    simp only [parseDigits] at h
    split at h
    · split at h
      · exact ih ‹_› h
      · cases h
    · cases h

theorem parseInt_le {max v : ℕ} {bytes : Bytes} (h : parseInt max bytes = some v) : v ≤ max := by
  unfold parseInt at h
  generalize (if bytes.head? = some 43 then bytes.tail else bytes) = digits at h
  simp only at h
  split at h
  · cases h
  · exact parseDigits_le _ (Nat.zero_le _) h

/-- The pair that says that the application does not multiplex. -/
def mpxsOff : NameValuePair := ⟨mpxsConns, [48]⟩

/-- The value of a pair that is a valid `MAX_CONNS`. -/
def connsOf (kv : NameValuePair) : Option ℕ :=
  if kv.nameData = maxConns then parseInt 0xff kv.valueData else none

/-- The value of a pair that is a valid `MAX_REQS`. -/
def reqsOf (kv : NameValuePair) : Option ℕ :=
  if kv.nameData = maxReqs then parseInt 0xffff kv.valueData else none

namespace Capabilities

/-- The variables after a pair. -/
def after (self : Capabilities) (kv : NameValuePair) : Capabilities := (self.see kv).1

theorem see_mpxsOff (self : Capabilities) :
    self.see mpxsOff = ({ self with maxReqPerCon := 1 }, true) := by
  simp [see, mpxsOff, mpxsConns, maxConns, maxReqs]

/-- Any other pair sets what it is a valid value of, and the loop goes on. -/
theorem see_of_ne (self : Capabilities) {kv : NameValuePair} (h : kv ≠ mpxsOff) :
    self.see kv =
      (⟨((connsOf kv).map UInt8.ofNat).getD self.maxCons,
        ((reqsOf kv).map UInt16.ofNat).getD self.maxReqPerCon⟩, false) := by
  have hne : maxConns ≠ maxReqs := by decide
  unfold see connsOf reqsOf
  by_cases hc : kv.nameData = maxConns
  · rw [if_pos hc, if_pos hc, if_neg (hc ▸ hne)]
    cases parseInt 0xff kv.valueData <;> rfl
  · rw [if_neg hc, if_neg hc]
    by_cases hr : kv.nameData = maxReqs
    · rw [if_pos hr, if_pos hr]
      cases parseInt 0xffff kv.valueData <;> rfl
    · rw [if_neg hr, if_neg hr]
      by_cases hm : kv.nameData = mpxsConns
      · have hv : kv.valueData ≠ [48] := fun hv => h (by
          obtain ⟨name, value⟩ := kv
          cases hm
          cases hv
          rfl)
        rw [if_pos hm, if_neg hv]
        rfl
      · rw [if_neg hm]
        rfl

/-- The inner loop over given pairs. -/
def seeAll (self : Capabilities) : List NameValuePair → Capabilities
  | [] => self
  | kv :: kvs => if (self.see kv).2 then self.after kv else seeAll (self.after kv) kvs

theorem seeAll_singleton (self : Capabilities) (kv : NameValuePair) :
    self.seeAll [kv] = self.after kv := by
  rw [seeAll, seeAll, ite_self]

theorem seeAll_eq_foldl {kvs : List NameValuePair} (h : ∀ kv ∈ kvs, kv ≠ mpxsOff) :
    ∀ self : Capabilities, self.seeAll kvs = kvs.foldl after self := by
  induction kvs with
  | nil => exact fun _ => rfl
  | cons kv kvs ih =>
    intro self
    rw [seeAll, see_of_ne self (h kv List.mem_cons_self), if_neg Bool.false_ne_true,
      ih (fun q hq => h q (List.mem_cons_of_mem _ hq)), List.foldl_cons]

/-- The inner loop over the bytes of pairs with one byte lengths. -/
theorem drainUntil_short {kvs : List NameValuePair} (h : ∀ kv ∈ kvs, kv.Short) :
    ∀ self : Capabilities,
      NVDrain.reader.drainUntil see self () (kvs.map NameValuePair.encode).flatten =
        .ok (self.seeAll kvs) := by
  induction kvs with
  | nil => exact fun _ => Incremental.drainUntil_none (I := NVDrain.reader) (s := ()) (d := []) rfl
  | cons kv kvs ih =>
    intro self
    rw [List.map_cons, List.flatten_cons,
      Incremental.drainUntil_some (NVDrain.read_short (h kv List.mem_cons_self) _),
      ih fun q hq => h q (List.mem_cons_of_mem _ hq), seeAll]
    split <;> rfl

theorem seeRecord_nvRecord (self : Capabilities) {r : WireRecord}
    (hr : r.rtype = .getValuesResult) :
    self.seeRecord r.nvRecord = NVDrain.reader.drainUntil see self () r.content := by
  rw [seeRecord, WireRecord.nvRecord, hr]
  simp only [NVBody.drain_fromBytes r.content_le, ok_bind]

end Capabilities

/-! ## Answers -/

/-- GET_VALUES_RESULT records with one group of pairs each. -/
def Carry (rs : List WireRecord) (groups : List (List NameValuePair)) : Prop :=
  (∀ r ∈ rs, r.rtype = .getValuesResult) ∧
    rs.map WireRecord.content = groups.map fun kvs => (kvs.map NameValuePair.encode).flatten

/-- The application answers with the pairs, divided among records in some order. -/
def Answers (rs : List WireRecord) (ps : List NameValuePair) : Prop :=
  ∃ groups, Carry rs groups ∧ groups.flatten.Perm ps

theorem exists_carry {groups : List (List NameValuePair)}
    (h : ∀ kvs ∈ groups, (kvs.map NameValuePair.encode).flatten.length ≤ maxLength) :
    ∃ rs, Carry rs groups := by
  induction groups with
  | nil => exact ⟨[], nofun, rfl⟩
  | cons kvs groups ih =>
    obtain ⟨rs, htype, hrs⟩ := ih fun q hq => h q (List.mem_cons_of_mem _ hq)
    refine ⟨⟨1, .getValuesResult, 0, 0, (kvs.map NameValuePair.encode).flatten, [],
      h kvs List.mem_cons_self, Nat.zero_le _⟩ :: rs, ?_, by rw [List.map_cons, List.map_cons, hrs]⟩
    intro r hr
    rcases List.mem_cons.mp hr with rfl | hmem
    · rfl
    · exact htype r hmem

theorem fits_singletons {ps : List NameValuePair} (hlen : ∀ p ∈ ps, p.len ≤ maxLength) :
    ∀ kvs ∈ ps.map fun p => [p], (kvs.map NameValuePair.encode).flatten.length ≤ maxLength := by
  intro kvs hkvs
  obtain ⟨p, hp, rfl⟩ := List.mem_map.mp hkvs
  simpa [p.length_encode] using hlen p hp

theorem Carry.cons {rs : List WireRecord} {kvs : List NameValuePair}
    {groups : List (List NameValuePair)} (h : Carry rs (kvs :: groups)) :
    ∃ r rs', rs = r :: rs' ∧ r.rtype = .getValuesResult ∧
      r.content = (kvs.map NameValuePair.encode).flatten ∧ Carry rs' groups := by
  obtain ⟨htype, hrs⟩ := h
  cases rs with
  | nil => cases hrs
  | cons r rs =>
    obtain ⟨hcontent, hrest⟩ := List.cons.inj hrs
    exact ⟨r, rs, rfl, htype r List.mem_cons_self, hcontent,
      fun q hq => htype q (List.mem_cons_of_mem _ hq), hrest⟩

/-- The negotiation over pairs with one byte lengths. -/
theorem negotiate_carry (groups : List (List NameValuePair)) :
    (∀ kvs ∈ groups, ∀ kv ∈ kvs, kv.Short) → ∀ {rs : List WireRecord} (self : Capabilities),
    Carry rs groups →
    (rs.map WireRecord.nvRecord).foldlM Capabilities.seeRecord self =
      .ok (groups.foldl Capabilities.seeAll self) := by
  induction groups with
  | nil =>
    intro _ rs self h
    rw [List.map_eq_nil_iff.mp h.2]
    rfl
  | cons kvs groups ih =>
    intro hshort rs self h
    obtain ⟨r, rs, rfl, htype, hcontent, hrest⟩ := h.cons
    rw [List.map_cons, List.foldlM_cons, Capabilities.seeRecord_nvRecord self htype, hcontent,
      Capabilities.drainUntil_short (hshort kvs List.mem_cons_self), ok_bind]
    exact ih (fun q hq => hshort q (List.mem_cons_of_mem _ hq)) _ hrest

/-- A pair without one byte lengths panics in a record of its own. -/
theorem short_of_negotiate (ps : List NameValuePair) : (∀ p ∈ ps, p.len ≤ maxLength) →
    ∀ {rs : List WireRecord} {self caps : Capabilities}, Carry rs (ps.map fun p => [p]) →
    (rs.map WireRecord.nvRecord).foldlM Capabilities.seeRecord self = .ok caps →
    ∀ p ∈ ps, p.Short := by
  induction ps with
  | nil => exact fun _ _ _ _ _ _ => nofun
  | cons p ps ih =>
    intro hlen rs self caps h hok
    obtain ⟨r, rs, rfl, htype, hcontent, hrest⟩ := h.cons
    rw [List.map_cons, List.foldlM_cons, Capabilities.seeRecord_nvRecord self htype,
      hcontent] at hok
    obtain ⟨caps₁, hone, hok⟩ := bind_eq_ok.mp hok
    have hp : p.Short := by
      by_contra hlong
      have hpanics : NVDrain.reader.drainUntil Capabilities.see self () (p.encode ++ []) =
          .error .outOfBounds :=
        Incremental.drainUntil_error (NVDrain.read_long hlong (hlen p List.mem_cons_self) [])
      cases hpanics.symm.trans hone
    intro q hq
    rcases List.mem_cons.mp hq with rfl | hmem
    · exact hp
    · exact ih (fun q hq => hlen q (List.mem_cons_of_mem _ hq)) hrest hok q hmem

/-! ## The order of the pairs -/

namespace Capabilities

theorem after_mpxsOff (self : Capabilities) :
    self.after mpxsOff = { self with maxReqPerCon := 1 } := by
  rw [after, see_mpxsOff]

theorem after_of_ne (self : Capabilities) {kv : NameValuePair} (h : kv ≠ mpxsOff) :
    self.after kv = ⟨((connsOf kv).map UInt8.ofNat).getD self.maxCons,
      ((reqsOf kv).map UInt16.ofNat).getD self.maxReqPerCon⟩ := by
  rw [after, see_of_ne self h]

/-- Pairs with other names set other variables. -/
theorem after_comm (self : Capabilities) {a b : NameValuePair} (ha : a ≠ mpxsOff)
    (hb : b ≠ mpxsOff) (hname : a.nameData ≠ b.nameData) :
    (self.after a).after b = (self.after b).after a := by
  have hconns : connsOf a = none ∨ connsOf b = none := by
    unfold connsOf
    by_cases h : a.nameData = maxConns
    · exact Or.inr (if_neg fun h' => hname (h.trans h'.symm))
    · exact Or.inl (if_neg h)
  have hreqs : reqsOf a = none ∨ reqsOf b = none := by
    unfold reqsOf
    by_cases h : a.nameData = maxReqs
    · exact Or.inr (if_neg fun h' => hname (h.trans h'.symm))
    · exact Or.inl (if_neg h)
  rw [after_of_ne _ hb, after_of_ne _ ha, after_of_ne _ ha, after_of_ne _ hb]
  rcases hconns with hc | hc <;> rcases hreqs with hr | hr <;> simp [hc, hr]

theorem foldl_perm {ps qs : List NameValuePair} (h : ps.Perm qs)
    (hoff : mpxsOff ∉ ps) (hnames : (ps.map NameValuePair.nameData).Nodup) (self : Capabilities) :
    ps.foldl after self = qs.foldl after self := by
  refine h.foldl_eq' (fun a ha b hb z => ?_) self
  by_cases hab : a = b
  · rw [hab]
  · exact after_comm z (fun h => hoff (h ▸ ha)) (fun h => hoff (h ▸ hb))
      fun hname => hab (List.inj_on_of_nodup_map hnames ha hb hname)

/-- What the pairs that are left do not name stays. -/
theorem foldl_maxCons {ps : List NameValuePair} (h : ∀ p ∈ ps, p.nameData ≠ maxConns) :
    ∀ self : Capabilities, (ps.foldl after self).maxCons = self.maxCons := by
  induction ps with
  | nil => exact fun _ => rfl
  | cons p ps ih =>
    intro self
    rw [List.foldl_cons, ih fun q hq => h q (List.mem_cons_of_mem _ hq)]
    by_cases hoff : p = mpxsOff
    · rw [hoff, after_mpxsOff]
    · rw [after_of_ne self hoff, connsOf, if_neg (h p List.mem_cons_self)]
      rfl

/-- Without a `break` the division does not matter. -/
theorem foldl_seeAll {groups : List (List NameValuePair)}
    (h : ∀ kvs ∈ groups, ∀ kv ∈ kvs, kv ≠ mpxsOff) :
    ∀ self : Capabilities, groups.foldl seeAll self = groups.flatten.foldl after self := by
  induction groups with
  | nil => exact fun _ => rfl
  | cons kvs groups ih =>
    intro self
    rw [List.foldl_cons, seeAll_eq_foldl (h kvs List.mem_cons_self), List.flatten_cons,
      List.foldl_append, ih fun q hq => h q (List.mem_cons_of_mem _ hq)]

theorem foldl_singletons (ps : List NameValuePair) (self : Capabilities) :
    (ps.map fun p => [p]).foldl seeAll self = ps.foldl after self := by
  rw [List.foldl_map]
  congr 1
  funext self p
  exact seeAll_singleton self p

end Capabilities

/-- Whatever the order of the pairs and their division into records, the outcome is one; an
application that does not multiplex gets one request per connection, and a valid `MAX_CONNS` is
taken. -/
def OrderIndependent (ps : List NameValuePair) : Prop :=
  ∃ caps, (∀ rs, Answers rs ps → negotiate (rs.map WireRecord.nvRecord) = .ok caps) ∧
    (mpxsOff ∈ ps → caps.maxReqPerCon = 1) ∧
    ∀ p ∈ ps, ∀ v, connsOf p = some v → caps.maxCons = UInt8.ofNat v

/-- The lengths are of one byte, and beside `MPXS_CONNS = "0"` nothing valid but a 1. -/
def Harmless (ps : List NameValuePair) : Prop :=
  (∀ p ∈ ps, p.Short) ∧ (mpxsOff ∈ ps →
    ∀ p ∈ ps, (∀ v, connsOf p = some v → v = 1) ∧ ∀ v, reqsOf p = some v → v = 1)

/-- Nothing but 1 is set. -/
theorem seeAll_initial {kvs : List NameValuePair} (h : ∀ p ∈ kvs,
    (∀ v, connsOf p = some v → v = 1) ∧ ∀ v, reqsOf p = some v → v = 1) :
    Capabilities.initial.seeAll kvs = .initial := by
  have hafter : ∀ p ∈ kvs, Capabilities.initial.after p = .initial := by
    intro p hp
    obtain ⟨hconns, hreqs⟩ := h p hp
    by_cases hoff : p = mpxsOff
    · rw [hoff, Capabilities.after_mpxsOff]
      rfl
    · rw [Capabilities.after_of_ne _ hoff]
      cases hc : connsOf p with
      | none =>
        cases hr : reqsOf p with
        | none => rfl
        | some v => rw [hreqs v hr]; rfl
      | some u =>
        rw [hconns u hc]
        cases hr : reqsOf p with
        | none => rfl
        | some v => rw [hreqs v hr]; rfl
  induction kvs with
  | nil => rfl
  | cons kv kvs ih =>
    rw [Capabilities.seeAll, hafter kv List.mem_cons_self,
      ih (fun q hq => h q (List.mem_cons_of_mem _ hq))
        fun q hq => hafter q (List.mem_cons_of_mem _ hq), ite_self]

theorem foldl_seeAll_initial {groups : List (List NameValuePair)} (h : ∀ kvs ∈ groups,
    ∀ p ∈ kvs, (∀ v, connsOf p = some v → v = 1) ∧ ∀ v, reqsOf p = some v → v = 1) :
    groups.foldl Capabilities.seeAll .initial = .initial := by
  induction groups with
  | nil => rfl
  | cons kvs groups ih =>
    rw [List.foldl_cons, seeAll_initial (h kvs List.mem_cons_self)]
    exact ih fun q hq => h q (List.mem_cons_of_mem _ hq)

theorem Harmless.orderIndependent {ps : List NameValuePair} (h : Harmless ps)
    (hnames : (ps.map NameValuePair.nameData).Nodup) : OrderIndependent ps := by
  obtain ⟨hshort, hones⟩ := h
  have hgroups : ∀ rs, Answers rs ps → ∃ groups : List (List NameValuePair),
      groups.flatten.Perm ps ∧ (∀ kvs ∈ groups, ∀ p ∈ kvs, p ∈ ps) ∧
        negotiate (rs.map WireRecord.nvRecord) = .ok (groups.foldl Capabilities.seeAll .initial) := by
    rintro rs ⟨groups, hcarry, hperm⟩
    have hmem : ∀ kvs ∈ groups, ∀ p ∈ kvs, p ∈ ps := fun kvs hkvs p hp =>
      hperm.mem_iff.mp (List.mem_flatten.mpr ⟨kvs, hkvs, hp⟩)
    exact ⟨groups, hperm, hmem,
      negotiate_carry groups (fun kvs hkvs kv hkv => hshort kv (hmem kvs hkvs kv hkv)) .initial hcarry⟩
  by_cases hoff : mpxsOff ∈ ps
  · -- nothing is set to anything but 1
    refine ⟨.initial, fun rs hrs => ?_, fun _ => rfl, fun p hp v hv => ?_⟩
    · obtain ⟨groups, -, hmem, hok⟩ := hgroups rs hrs
      rw [hok, foldl_seeAll_initial fun kvs hkvs p hp => hones hoff p (hmem kvs hkvs p hp)]
    · rw [(hones hoff p hp).1 v hv]
      rfl
  · -- no `break`: the pairs one after the other
    refine ⟨ps.foldl Capabilities.after .initial, fun rs hrs => ?_, fun h => absurd h hoff,
      fun p hp v hv => ?_⟩
    · obtain ⟨groups, hperm, hmem, hok⟩ := hgroups rs hrs
      rw [hok, Capabilities.foldl_perm hperm.symm hoff hnames, Capabilities.foldl_seeAll]
      exact fun kvs hkvs kv hkv h => hoff (h ▸ hmem kvs hkvs kv hkv)
    · have hperm : ps.Perm (ps.erase p ++ [p]) :=
        (List.perm_cons_erase hp).trans (List.perm_append_singleton _ _).symm
      rw [Capabilities.foldl_perm hperm hoff hnames, List.foldl_append, List.foldl_cons,
        List.foldl_nil, Capabilities.after_of_ne _ fun h => hoff (h ▸ hp), hv]
      rfl

theorem ofNat_eq_one {v : ℕ} (hle : v ≤ 0xff) (h : UInt8.ofNat v = 1) : v = 1 := by
  have := congrArg UInt8.toNat h
  rw [UInt8.toNat_ofNat', UInt8.toNat_one] at this
  omega

theorem ofNat_eq_one' {v : ℕ} (hle : v ≤ 0xffff) (h : UInt16.ofNat v = 1) : v = 1 := by
  have := congrArg UInt16.toNat h
  rw [UInt16.toNat_ofNat', UInt16.toNat_one] at this
  omega

theorem connsOf_some {p : NameValuePair} {v : ℕ} (h : connsOf p = some v) :
    p.nameData = maxConns ∧ v ≤ 0xff := by
  unfold connsOf at h
  split at h
  · exact ⟨‹_›, parseInt_le h⟩
  · cases h

theorem reqsOf_some {p : NameValuePair} {v : ℕ} (h : reqsOf p = some v) :
    p.nameData = maxReqs ∧ v ≤ 0xffff := by
  unfold reqsOf at h
  split at h
  · exact ⟨‹_›, parseInt_le h⟩
  · cases h

/-- A record for each pair, in any order: what `OrderIndependent` says of them. -/
theorem OrderIndependent.foldl {ps : List NameValuePair} (hlen : ∀ p ∈ ps, p.len ≤ maxLength)
    {caps : Capabilities}
    (h : ∀ rs, Answers rs ps → negotiate (rs.map WireRecord.nvRecord) = .ok caps) :
    (∀ p ∈ ps, p.Short) ∧
      ∀ qs : List NameValuePair, qs.Perm ps → qs.foldl Capabilities.after .initial = caps := by
  have hrs : ∀ qs : List NameValuePair, qs.Perm ps → ∃ rs, Carry rs (qs.map fun p => [p]) ∧
      negotiate (rs.map WireRecord.nvRecord) = .ok caps := by
    intro qs hqs
    obtain ⟨rs, hcarry⟩ := exists_carry (fits_singletons fun p hp => hlen p (hqs.mem_iff.mp hp))
    refine ⟨rs, hcarry, h rs ⟨_, hcarry, ?_⟩⟩
    rwa [← List.flatMap_def, List.flatMap_singleton']
  have hshort : ∀ p ∈ ps, p.Short := by
    obtain ⟨rs, hcarry, hok⟩ := hrs ps (List.Perm.refl ps)
    exact short_of_negotiate ps hlen hcarry hok
  refine ⟨hshort, fun qs hqs => ?_⟩
  obtain ⟨rs, hcarry, hok⟩ := hrs qs hqs
  have hgroups : ∀ kvs ∈ qs.map fun p => [p], ∀ kv ∈ kvs, kv.Short := by
    intro kvs hkvs kv hkv
    obtain ⟨p, hp, rfl⟩ := List.mem_map.mp hkvs
    rw [List.mem_singleton.mp hkv]
    exact hshort p (hqs.mem_iff.mp hp)
  have heq := (negotiate_carry _ hgroups .initial hcarry).symm.trans hok
  rw [Capabilities.foldl_singletons] at heq
  exact Except.ok.inj heq

theorem len_le_of_short {p : NameValuePair} (h : p.Short) : p.len ≤ 0x100 := by
  obtain ⟨hn, hv⟩ := h
  simp only [NameValuePair.len]
  split_ifs <;> omega

/-- A valid `MAX_CONNS` behind `MPXS_CONNS = "0"` in one record is not seen. -/
theorem OrderIndependent.skips {ps : List NameValuePair}
    (hnames : (ps.map NameValuePair.nameData).Nodup) (hlen : ∀ p ∈ ps, p.len ≤ maxLength)
    (hshort : ∀ p ∈ ps, p.Short) (hoff : mpxsOff ∈ ps) {p : NameValuePair} (hp : p ∈ ps)
    (hname : p.nameData = maxConns) {caps : Capabilities}
    (h : ∀ rs, Answers rs ps → negotiate (rs.map WireRecord.nvRecord) = .ok caps) :
    caps.maxCons = 1 := by
  have hne : mpxsOff ≠ p := fun heq => by
    have : mpxsConns = maxConns := (congrArg NameValuePair.nameData heq).trans hname
    exact absurd this (by decide)
  generalize hrest : (ps.erase p).erase mpxsOff = rest
  have hperm : ps.Perm (p :: mpxsOff :: rest) := by
    rw [← hrest]
    exact (List.perm_cons_erase hp).trans
      ((List.perm_cons_erase ((List.mem_erase_of_ne hne).mpr hoff)).cons p)
  have hothers : ∀ q ∈ rest, q.nameData ≠ maxConns := by
    intro q hq heq
    have hnodup := (hperm.map NameValuePair.nameData).nodup_iff.mp hnames
    refine (List.nodup_cons.mp hnodup).1 (List.mem_map.mpr ⟨q, List.mem_cons_of_mem _ hq, ?_⟩)
    rw [heq, hname]
  have hgroups : ∀ kvs ∈ [mpxsOff, p] :: rest.map fun q => [q], ∀ kv ∈ kvs, kv ∈ ps := by
    intro kvs hkvs kv hkv
    rcases List.mem_cons.mp hkvs with rfl | hmem
    · rcases List.mem_pair.mp hkv with rfl | rfl
      · exact hoff
      · exact hp
    · obtain ⟨q, hq, rfl⟩ := List.mem_map.mp hmem
      rw [List.mem_singleton.mp hkv]
      exact hperm.mem_iff.mpr (List.mem_cons_of_mem _ (List.mem_cons_of_mem _ hq))
  have hfits : ∀ kvs ∈ [mpxsOff, p] :: rest.map fun q => [q],
      (kvs.map NameValuePair.encode).flatten.length ≤ maxLength := by
    intro kvs hkvs
    rcases List.mem_cons.mp hkvs with rfl | hmem
    · have hoffLen : mpxsOff.len = 13 := rfl
      have hpLen := len_le_of_short (hshort p hp)
      have hmax : maxLength = 0xffff := rfl
      simp only [List.map_cons, List.map_nil, List.flatten_cons, List.flatten_nil, List.append_nil,
        List.length_append, NameValuePair.length_encode]
      omega
    · refine fits_singletons (fun q hq => hlen q ?_) kvs hmem
      exact hperm.mem_iff.mpr (List.mem_cons_of_mem _ (List.mem_cons_of_mem _ hq))
  obtain ⟨rs, hcarry⟩ := exists_carry hfits
  have hanswers : Answers rs ps := ⟨_, hcarry, by
    rw [List.flatten_cons, ← List.flatMap_def, List.flatMap_singleton']
    exact (List.Perm.swap p mpxsOff rest).trans hperm.symm⟩
  have heq := (negotiate_carry _ (fun kvs hkvs kv hkv => hshort kv (hgroups kvs hkvs kv hkv))
    .initial hcarry).symm.trans (h rs hanswers)
  rw [List.foldl_cons, Capabilities.foldl_singletons] at heq
  rw [← Except.ok.inj heq, Capabilities.foldl_maxCons hothers, Capabilities.seeAll,
    Capabilities.see_mpxsOff, if_pos rfl, Capabilities.after_mpxsOff]
  rfl

theorem OrderIndependent.harmless {ps : List NameValuePair}
    (hnames : (ps.map NameValuePair.nameData).Nodup) (hlen : ∀ p ∈ ps, p.len ≤ maxLength)
    (h : OrderIndependent ps) : Harmless ps := by
  obtain ⟨caps, hall, hreq, hcons⟩ := h
  obtain ⟨hshort, hfold⟩ := OrderIndependent.foldl hlen hall
  refine ⟨hshort, fun hoff p hp => ⟨fun v hv => ?_, fun v hv => ?_⟩⟩
  · obtain ⟨hname, hle⟩ := connsOf_some hv
    exact ofNat_eq_one hle
      ((hcons p hp v hv).symm.trans (OrderIndependent.skips hnames hlen hshort hoff hp hname hall))
  · -- the last pair of all
    obtain ⟨hname, hle⟩ := reqsOf_some hv
    have hne : p ≠ mpxsOff := fun heq => by
      have : mpxsConns = maxReqs := (congrArg NameValuePair.nameData heq).symm.trans hname
      exact absurd this (by decide)
    have hlast := hfold _ ((List.perm_append_singleton _ _).trans (List.perm_cons_erase hp).symm)
    rw [List.foldl_append, List.foldl_cons, List.foldl_nil, Capabilities.after_of_ne _ hne,
      hv] at hlast
    exact ofNat_eq_one' hle ((congrArg Capabilities.maxReqPerCon hlast).trans (hreq hoff))

/-- **What the negotiation makes of the order.** An answer of pairs with distinct names, each of
which fits into a record: whatever their order and their division into records, the outcome is the
same and the right one, exactly if the lengths are of one byte and beside `MPXS_CONNS = "0"` no
valid `MAX_REQS` or `MAX_CONNS` is other than 1. The `break` leaves the pairs of one record only:
what follows in it is not looked at, and a later record may still set the number of requests. -/
theorem orderIndependent_iff {ps : List NameValuePair}
    (hnames : (ps.map NameValuePair.nameData).Nodup) (hlen : ∀ p ∈ ps, p.len ≤ maxLength) :
    OrderIndependent ps ↔ Harmless ps :=
  ⟨OrderIndependent.harmless hnames hlen, fun h => h.orderIndependent hnames⟩

/-- The application does not multiplex, and takes five requests. -/
def offAndReqs : List NameValuePair := [mpxsOff, ⟨maxReqs, [53]⟩]

/-- The same in one record, and in two. -/
def inOne : List WireRecord :=
  [⟨1, .getValuesResult, 0, 0, (offAndReqs.map NameValuePair.encode).flatten, [], by decide,
    noPadding_le⟩]

def inTwo : List WireRecord :=
  [⟨1, .getValuesResult, 0, 0, mpxsOff.encode, [], by decide, noPadding_le⟩,
    ⟨1, .getValuesResult, 0, 0, (NameValuePair.mk maxReqs [53]).encode, [], by decide, noPadding_le⟩]

theorem orderIndependent_iff_offAndReqs :
    OrderIndependent offAndReqs ↔ Harmless offAndReqs :=
  orderIndependent_iff (by decide) (by decide)

/-- In two records the client takes five requests for one connection. -/
theorem offAndReqs_dependent :
    (offAndReqs.map NameValuePair.nameData).Nodup ∧
      Answers inOne offAndReqs ∧ negotiate (inOne.map WireRecord.nvRecord) = .ok ⟨1, 1⟩ ∧
      Answers inTwo offAndReqs ∧ negotiate (inTwo.map WireRecord.nvRecord) = .ok ⟨1, 5⟩ ∧
      ¬ OrderIndependent offAndReqs := by
  have hone : Answers inOne offAndReqs :=
    ⟨[offAndReqs], ⟨by decide, rfl⟩, by rw [List.flatten_singleton]⟩
  have htwo : Answers inTwo offAndReqs :=
    ⟨[[mpxsOff], [⟨maxReqs, [53]⟩]], ⟨by decide, rfl⟩, List.Perm.refl _⟩
  have hsame : negotiate (inOne.map WireRecord.nvRecord) = .ok ⟨1, 1⟩ := by decide +kernel
  have hother : negotiate (inTwo.map WireRecord.nvRecord) = .ok ⟨1, 5⟩ := by decide +kernel
  refine ⟨by decide, hone, hsame, htwo, hother, ?_⟩
  rintro ⟨caps, hall, -, -⟩
  have h₁ := (hall inOne hone).symm.trans hsame
  have h₂ := (hall inTwo htwo).symm.trans hother
  have heq : (⟨1, 1⟩ : Capabilities) = ⟨1, 5⟩ := (Except.ok.inj h₁).symm.trans (Except.ok.inj h₂)
  exact absurd heq (by decide)

end AsyncFcgi
