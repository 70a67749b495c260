import AsyncFcgi.Client.Delivery
import AsyncFcgi.Client.RequestHead

/-!
# The variables that an application finds (`src/client/connection.rs`)

An application knows a request by the pairs in its PARAMS, and by the bytes in its STDIN. If the
caller names no variable of `forward`, and no two fields are the same but for `-` and `_`, then each
name is there once, so it does not matter which pair a reader takes.

* `nodup_names`: no name is there twice.
* `mem_head`: which pairs are there.
* `environment_run`: what an application finds that got a request.
-/

namespace AsyncFcgi

open Lib WireRecord

/-- The value an application finds for a name. -/
def getenv (pairs : List NameValuePair) (name : Bytes) : Option Bytes :=
  (pairs.find? fun p => p.nameData = name).map NameValuePair.valueData

/-- If no name is there twice, the first pair with a name is the only one. -/
theorem getenv_eq_some_iff {pairs : List NameValuePair}
    (hnodup : (pairs.map NameValuePair.nameData).Nodup) {name value : Bytes} :
    getenv pairs name = some value ↔ ⟨name, value⟩ ∈ pairs := by
  rw [getenv, Option.map_eq_some_iff]
  constructor
  · rintro ⟨p, hfind, rfl⟩
    have hname : p.nameData = name := by simpa using List.find?_some hfind
    rw [← hname]
    exact List.mem_of_find?_eq_some hfind
  · intro hmem
    obtain ⟨p, hfind⟩ : ∃ p, pairs.find? (fun p => p.nameData = name) = some p := by
      rw [← Option.isSome_iff_exists, List.find?_isSome]
      exact ⟨_, hmem, by simp⟩
    have hname : p.nameData = name := by simpa using List.find?_some hfind
    obtain rfl : p = ⟨name, value⟩ :=
      List.inj_on_of_nodup_map hnodup (List.mem_of_find?_eq_some hfind) hmem hname
    exact ⟨_, hfind, rfl⟩

namespace Request

variable (self : Request) (dynHeaders : List NameValuePair) (headerMul : MultiHeaderStrategy)
  (headerNl : HeaderMultilineStrategy)

/-! ## Specification -/

/-- The variables for a request, with their values. -/
inductive Variable : Bytes → Bytes → Prop
  | query : Variable queryString (self.query.getD [])
  | method : Variable requestMethod self.method
  | type {value} (hget : self.headers.map.get HeaderName.contentType = some value) :
      Variable contentType value
  | length (hbody : self.sizeHint.upper ≠ some 0) :
      Variable contentLength (decimal self.sizeHint.lower)
  | field {key value} (hkey : key ∈ self.headers.keys) (hskip : key ∉ skip)
      (hvalue : headerMul.Picks (self.headers.map.getAll key) value) :
      Variable (httpName key) value

/-- The caller of `forward` names each of its variables once, and none of `forward`, and no two
fields are the same but for `-` and `_`. -/
structure Clear (request : Request) (dynHeaders : List NameValuePair)
    (headerMul : MultiHeaderStrategy) : Prop where
  nodup : (dynHeaders.map NameValuePair.nameData).Nodup
  apart : ∀ p ∈ dynHeaders, ∀ value, ¬ request.Variable headerMul p.nameData value
  spelled : ∀ key ∈ request.headers.keys, key ∉ skip → ∀ other ∈ request.headers.keys,
    other ∉ skip → underscored key = underscored other → key = other

/-! ## The pairs -/

variable {self dynHeaders headerMul headerNl}

/-- A strategy makes one value of those of a field. -/
theorem picks_unique {values : List Bytes} {value value' : Bytes}
    (h : headerMul.Picks values value) (h' : headerMul.Picks values value') : value = value' := by
  cases headerMul with
  | combine => exact h.trans h'.symm
  | onlyFirst => exact Option.some.inj (h.symm.trans h')
  | onlyLast => exact Option.some.inj (h.symm.trans h')

/-- If no header is rejected, all fields are forwarded but those that are skipped. -/
theorem mem_forwarded_iff (hrej : (self.head dynHeaders headerMul headerNl).rejected = false)
    {key : Bytes} : key ∈ self.headers.forwarded headerMul headerNl ↔
      key ∈ self.headers.keys ∧ key ∉ skip := by
  refine ⟨RequestHeaders.mem_forwarded, fun ⟨hkey, hskip⟩ => ?_⟩
  rw [head, httpHeaders_eq] at hrej
  have hall : ∀ key ∈ self.headers.keys.filter (· ∉ skip),
      (!headerNl.rejects (httpValue headerMul self.headers key)) = true := by
    simpa using hrej
  rw [RequestHeaders.forwarded, List.takeWhile_eq_self_iff.mpr hall, List.mem_filter]
  exact ⟨hkey, by simpa using hskip⟩

theorem mem_httpHeaders (hrej : (self.head dynHeaders headerMul headerNl).rejected = false)
    {p : NameValuePair} : p ∈ (httpHeaders headerMul headerNl self.headers).1 ↔
      ∃ key ∈ self.headers.keys, key ∉ skip ∧
        p = ⟨httpName key, httpValue headerMul self.headers key⟩ := by
  rw [httpHeaders_eq, List.mem_map]
  constructor
  · rintro ⟨key, hkey, rfl⟩
    obtain ⟨hmem, hskip⟩ := (mem_forwarded_iff hrej).mp hkey
    exact ⟨key, hmem, hskip, rfl⟩
  · rintro ⟨key, hmem, hskip, rfl⟩
    exact ⟨key, (mem_forwarded_iff hrej).mpr ⟨hmem, hskip⟩, rfl⟩

/-- The pairs of a request are those of its caller, and its variables. -/
theorem mem_head (hrej : (self.head dynHeaders headerMul headerNl).rejected = false)
    {p : NameValuePair} : p ∈ (self.head dynHeaders headerMul headerNl).pairs ↔
      p ∈ dynHeaders ∨ self.Variable headerMul p.nameData p.valueData := by
  have hpairs : (self.head dynHeaders headerMul headerNl).pairs =
      self.cgiPairs dynHeaders ++ (httpHeaders headerMul headerNl self.headers).1 := rfl
  rw [hpairs, cgiPairs, typePair, len]
  simp only [List.mem_append, mem_httpHeaders hrej, List.mem_cons, List.not_mem_nil, or_false]
  constructor
  · rintro ((((hdyn | rfl | rfl) | htype) | hlen) | ⟨key, hmem, hskip, rfl⟩)
    · exact Or.inl hdyn
    · exact Or.inr .query
    · exact Or.inr .method
    · cases hget : self.headers.map.get HeaderName.contentType with
      | none =>
        rw [hget] at htype
        cases htype
      | some value =>
        rw [hget] at htype
        rw [List.mem_singleton.mp htype]
        exact Or.inr (.type hget)
    · split at hlen
      · cases hlen
      · rw [List.mem_singleton.mp hlen]
        exact Or.inr (.length ‹_›)
    · exact Or.inr (.field hmem hskip (httpValue_picks headerMul self.headers hmem))
  · rintro (hdyn | hvar)
    · exact Or.inl (Or.inl (Or.inl (Or.inl hdyn)))
    · obtain ⟨name, value⟩ := p
      cases hvar with
      | query => exact Or.inl (Or.inl (Or.inl (Or.inr (Or.inl rfl))))
      | method => exact Or.inl (Or.inl (Or.inl (Or.inr (Or.inr rfl))))
      | type hget =>
        rw [hget]
        exact Or.inl (Or.inl (Or.inr List.mem_cons_self))
      | length hbody =>
        rw [if_neg hbody]
        exact Or.inl (Or.inr List.mem_cons_self)
      | field hkey hskip hvalue =>
        exact Or.inr ⟨_, hkey, hskip, congrArg (NameValuePair.mk _)
          (picks_unique hvalue (httpValue_picks headerMul self.headers hkey))⟩

/-- The names in front of the headers. -/
def cgiNames : List Bytes := [queryString, requestMethod, contentType, contentLength]

theorem cgiNames_sublist :
    ((self.cgiPairs []).map NameValuePair.nameData).Sublist cgiNames := by
  rw [cgiPairs, typePair, len, cgiNames]
  cases self.headers.map.get HeaderName.contentType <;> by_cases h : self.sizeHint.upper = some 0 <;>
    simp [h]

/-- They are not those for headers. -/
theorem httpName_not_mem (key : Bytes) : httpName key ∉ cgiNames := by
  simp [httpName, cgiNames, queryString, requestMethod, contentType, contentLength]

/-- No name is there twice. -/
theorem Clear.nodup_names (h : self.Clear dynHeaders headerMul)
    (hrej : (self.head dynHeaders headerMul headerNl).rejected = false) :
    ((self.head dynHeaders headerMul headerNl).pairs.map NameValuePair.nameData).Nodup := by
  have hpairs : (self.head dynHeaders headerMul headerNl).pairs = dynHeaders ++
      (self.cgiPairs [] ++ (httpHeaders headerMul headerNl self.headers).1) := by
    simp only [head, cgiPairs, List.append_assoc, List.nil_append]
  have hfields : ((httpHeaders headerMul headerNl self.headers).1.map
      NameValuePair.nameData).Nodup := by
    rw [httpHeaders_eq, List.map_map]
    refine List.Nodup.map_on (fun key hkey other hother heq => ?_)
      (self.headers.nodup_forwarded headerMul headerNl)
    obtain ⟨hkey, hskip⟩ := RequestHeaders.mem_forwarded hkey
    obtain ⟨hother, hskip'⟩ := RequestHeaders.mem_forwarded hother
    exact h.spelled key hkey hskip other hother hskip' ((httpName_eq_iff
      (self.headers.isHeaderName hkey) (self.headers.isHeaderName hother)).mp heq)
  rw [hpairs, List.map_append, List.map_append, List.nodup_append', List.nodup_append']
  refine ⟨h.nodup, ⟨cgiNames_sublist.nodup (by decide), hfields, ?_⟩, ?_⟩
  · -- a variable for a header is none of the others
    intro name hcgi hfield
    obtain ⟨p, hp, rfl⟩ := List.mem_map.mp hfield
    obtain ⟨key, -, -, rfl⟩ := (mem_httpHeaders hrej).mp hp
    exact httpName_not_mem key (cgiNames_sublist.subset hcgi)
  · -- a name of the caller is no variable
    intro name hdyn hown
    obtain ⟨d, hd, rfl⟩ := List.mem_map.mp hdyn
    rw [← List.map_append, List.mem_map] at hown
    obtain ⟨p, hp, hname⟩ := hown
    rcases (@mem_head self [] headerMul headerNl hrej p).mp hp with hnil | hvar
    · cases hnil
    · exact h.apart d hd p.valueData (hname ▸ hvar)

end Request

namespace Wire

/-- **What an application finds of a request.** Any number of calls, in any order of steps, none of
them dropped, and no write fails. When a call is behind its upload, an application that takes the
bytes apart by ids has its request: for the caller's names it finds the caller's values, for each
variable of `forward` the value from the request, and nothing else; `CONTENT_LENGTH` is the number
of bytes in STDIN, and without one there are none. -/
theorem environment_run {http : Http} {A : Allocator} {req : ℕ → Head} {evs : List Event}
    {maxReqPerCon : UInt16} {answer : ℕ → WriteAnswer} {wire : Wire}
    (hrun : Runs http A req maxReqPerCon answer evs wire)
    (hacc : (Transport.new answer).Accepting) (hevs : ∀ ev ∈ evs, ev.Undisturbed) {j : ℕ}
    {request : Request} {dynHeaders : List NameValuePair} {headerMul : MultiHeaderStrategy}
    {headerNl : HeaderMultilineStrategy} (hreq : req j = request.head dynHeaders headerMul headerNl)
    (hclear : request.Clear dynHeaders headerMul) {call : Forward}
    (hcall : wire.con.calls[j]? = some call) (hu : call.Uploaded = true) (hj : j ∈ wire.begun) :
    ∃ rs id, ∃ q ∈ receivedOf id rs, ∃ pairs, wire.io.io.sent = encodeAll rs ∧ q.phase = .over ∧
      q.aborted = false ∧ NameValuePair.code.decodeAll q.params = some pairs ∧
      (∀ name value, getenv pairs name = some value ↔
        ⟨name, value⟩ ∈ dynHeaders ∨ request.Variable headerMul name value) ∧
      q.stdin = bodySent evs j ∧
      if request.sizeHint.upper = some 0 then q.stdin = []
      else getenv pairs Request.contentLength = some (decimal q.stdin.length) := by
  obtain ⟨rs, owners, hd, ha⟩ := accounted_run hrun hacc hevs
  obtain ⟨hrej, id, q, hq, hpairs, hstdin, hlen, hphase, haborted⟩ := hd.uploaded ha hcall hu hj
  rw [hreq] at hrej hpairs hlen
  have henv : ∀ name value,
      getenv (request.head dynHeaders headerMul headerNl).pairs name = some value ↔
        ⟨name, value⟩ ∈ dynHeaders ∨ request.Variable headerMul name value := by
    intro name value
    rw [getenv_eq_some_iff (hclear.nodup_names hrej), Request.mem_head hrej]
  refine ⟨rs, id, q, hq, _, hd.sent, hphase, haborted, hpairs, henv, hstdin, ?_⟩
  have hhead : (request.head dynHeaders headerMul headerNl).len = request.len.1 := rfl
  rw [hhead, Request.len] at hlen
  split
  · rename_i hnone
    rw [if_pos hnone] at hlen
    exact List.length_eq_zero_iff.mp hlen
  · rename_i hbody
    rw [if_neg hbody] at hlen
    rw [henv, hlen]
    exact Or.inr (.length hbody)

/-- A POST with a body of one byte. -/
def postRequest : Request where
  query := none
  method := [80, 79, 83, 84]
  headers := ⟨[], List.forall_mem_nil _⟩
  sizeHint := ⟨1, some 1, fun _ hu => (Option.some.inj hu).le⟩

/-- Of it the length of its body is found. -/
theorem environment_run_post : ∃ (wire : Wire) (rs : List WireRecord) (id : UInt16),
    ∃ q ∈ receivedOf id rs, ∃ pairs, wire.io.io.sent = encodeAll rs ∧
      NameValuePair.code.decodeAll q.params = some pairs ∧ q.stdin = [65] ∧
      getenv pairs Request.contentLength = some [49] := by
  obtain ⟨wire, call, hrun, hcall, hu, hj⟩ := runs_postEvents
  have hreq : post = postRequest.head [] .combine .ignore := by decide +kernel
  have hclear : postRequest.Clear [] .combine :=
    ⟨List.nodup_nil, List.forall_mem_nil _, List.forall_mem_nil _⟩
  obtain ⟨rs, id, q, hq, pairs, hsent, -, -, hpairs, -, hstdin, hlen⟩ :=
    environment_run hrun (fun _ => ⟨0, rfl⟩) postEvents_undisturbed hreq hclear hcall hu hj
  have hone : q.stdin = [65] := hstdin
  rw [if_neg (by decide), hone] at hlen
  exact ⟨wire, rs, id, q, hq, pairs, hsent, hpairs, hone, hlen⟩

end Wire

end AsyncFcgi
