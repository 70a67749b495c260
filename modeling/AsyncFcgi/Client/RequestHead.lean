import AsyncFcgi.Client.RequestHeaders
import AsyncFcgi.Client.SendHead
import AsyncFcgi.Codec.Capacity

/-!
# The pairs of a request (`src/client/connection.rs`)

`forward` hands the pairs of its caller to `add_kv`, then CGI variables, then a variable for each
header. With `HeaderMultilineStrategy::ReturnError` a line feed is looked for in the variables
`HTTP_*`, and not in `CONTENT_TYPE`.

* `sendHead_rejected`: a head that is rejected ends with ABORT_REQUEST within PARAMS.
* `head_rejected`: which requests have such a head.
* `keepsNewlinesOut_iff`: no line feed of a header gets into PARAMS if and only if there is none in
  `Content-Type`, and `add_kv` takes what is in front of a header with one.
-/

namespace AsyncFcgi

open Lib

/-- `http_body::SizeHint`. -/
structure SizeHint where
  lower : ℕ
  upper : Option ℕ
  lower_le : ∀ u ∈ upper, lower ≤ u

/-- What `forward` reads of a request: the query of its URI, the method, the headers and
`size_hint` of the body. -/
structure Request where
  query : Option Bytes
  method : Bytes
  headers : RequestHeaders
  sizeHint : SizeHint

/-- `usize::to_string`. -/
def decimal (n : ℕ) : Bytes := (Nat.toDigits 10 n).map fun c => UInt8.ofNat c.toNat

namespace Request

/-- `QUERY_STRING`, `REQUEST_METHOD`, `CONTENT_TYPE` and `CONTENT_LENGTH` (lines 180–183). -/
def queryString : Bytes := [81, 85, 69, 82, 89, 95, 83, 84, 82, 73, 78, 71]

@[inherit_doc queryString]
def requestMethod : Bytes := [82, 69, 81, 85, 69, 83, 84, 95, 77, 69, 84, 72, 79, 68]

@[inherit_doc queryString]
def contentType : Bytes := [67, 79, 78, 84, 69, 78, 84, 95, 84, 89, 80, 69]

@[inherit_doc queryString]
def contentLength : Bytes := [67, 79, 78, 84, 69, 78, 84, 95, 76, 69, 78, 71, 84, 72]

/-- The pair for the type of the body (lines 298–301). -/
def typePair (self : Request) : List NameValuePair :=
  match self.headers.map.get HeaderName.contentType with
  | some value => [⟨contentType, value⟩]
  | none => []

/-- `len`, and the pair for it (lines 303–312). -/
def len (self : Request) : Option ℕ × List NameValuePair :=
  if self.sizeHint.upper = some 0 then (none, [])
  else
    let value := self.sizeHint.lower
    (some value, [⟨contentLength, decimal value⟩])

/-- The pairs in front of the headers (lines 285–312). -/
def cgiPairs (self : Request) (dynHeaders : List NameValuePair) : List NameValuePair :=
  dynHeaders ++ [⟨queryString, self.query.getD []⟩, ⟨requestMethod, self.method⟩] ++
    self.typePair ++ self.len.2

/-- What `forward` makes of a request (lines 282–382). -/
def head (self : Request) (dynHeaders : List NameValuePair) (headerMul : MultiHeaderStrategy)
    (headerNl : HeaderMultilineStrategy) : Head :=
  let (pairs, rejected) := httpHeaders headerMul headerNl self.headers
  { pairs := self.cgiPairs dynHeaders ++ pairs
    rejected
    len := self.len.1 }

/-- The pairs with a value from a header. -/
def headerPairs (self : Request) (headerMul : MultiHeaderStrategy)
    (headerNl : HeaderMultilineStrategy) : List NameValuePair :=
  self.typePair ++ (httpHeaders headerMul headerNl self.headers).1

/-! ## Specification -/

/-- A field that becomes a variable `HTTP_*` has a line feed in the value for it. -/
def FieldNewline (self : Request) (headerMul : MultiHeaderStrategy) : Prop :=
  ∃ key ∈ self.headers.keys, key ∉ skip ∧ 10 ∈ httpValue headerMul self.headers key

/-- There is a line feed in the type of the body. -/
def TypeNewline (self : Request) : Prop :=
  ∃ value, self.headers.map.get HeaderName.contentType = some value ∧ 10 ∈ value

/-- The pairs in front of the first field with a line feed, or all pairs. -/
def pairsBefore (self : Request) (dynHeaders : List NameValuePair)
    (headerMul : MultiHeaderStrategy) : List NameValuePair :=
  self.cgiPairs dynHeaders ++ (self.headers.forwarded headerMul .returnError).map
    fun key => ⟨httpName key, httpValue headerMul self.headers key⟩

end Request

/-- On any transport: PARAMS with the first code words of the pairs, ABORT_REQUEST, and `forward`
returns `InvalidData`, unless a write fails. -/
def Head.Rejects (head : Head) (A : Allocator) (requestId : UInt16) : Prop :=
  ∃ params, FCGIWriter.Writes (fun w => w.sendHead A requestId head)
      (WireRecord.encodeAll (FCGIWriter.headRecord requestId ::
        (params ++ [FCGIWriter.abortRecord requestId]))) (.ok (.ok .headerRejected)) ∧
    (∀ r ∈ params, FCGIWriter.IsParams requestId r) ∧
    (params.map WireRecord.content).flatten <+: NameValuePair.code.encodeAll head.pairs

/-- With `ReturnError` no header brings a line feed into PARAMS, and one with a line feed ends the
request. -/
structure KeepsNewlinesOut (headerMul : MultiHeaderStrategy) (dynHeaders : List NameValuePair)
    (request : Request) : Prop where
  pairs : ∀ p ∈ request.headerPairs headerMul .returnError, 10 ∉ p.valueData
  rejects : request.TypeNewline ∨ request.FieldNewline headerMul →
    ∀ A : Allocator, A.Exact → ∀ requestId,
      (request.head dynHeaders headerMul .returnError).Rejects A requestId

namespace FCGIWriter

variable {A : Allocator}

/-! ## Heads that are rejected -/

/-- A head that is rejected ends with ABORT_REQUEST within PARAMS. -/
theorem sendHead_rejected (hA : A.Exact) (requestId : UInt16) {head : Head}
    (hrej : head.rejected) (h : CanAdd head.pairs) : head.Rejects A requestId := by
  obtain ⟨buf, hkvw, hbuf⟩ := exists_kvStream A requestId .params
  obtain ⟨rs, kvw', hrs, hprefix, hextend⟩ := extend_canAdd hA h hkvw hbuf
  refine ⟨rs, ?_, fun r hr => IsParams.of_full (hrs r hr).1 (hrs r hr).2, hprefix⟩
  rw [WireRecord.encodeAll_cons, WireRecord.encodeAll_append, WireRecord.encodeAll_cons,
    WireRecord.encodeAll_nil, List.append_nil]
  refine (writes_begin A requestId).seq (hextend.seq (endHead_rejected A kvw' requestId hrej)
    (fun w w' hw => ?_) fun w e w' hw => ?_) (sendHead_begun hkvw head)
    (sendHead_notBegun requestId head)
  all_goals
    rw [hw]
    rfl

/-- If `add_kv` panics, the request does not end that way. -/
theorem canAdd_of_rejects {head : Head}
    (h : ∀ A : Allocator, A.Exact → ∀ requestId, head.Rejects A requestId) :
    CanAdd head.pairs := by
  by_contra hno
  obtain ⟨buf, hkvw, hbuf⟩ := exists_kvStream zeroed 1 .params
  obtain ⟨params, hwrites, -⟩ := h zeroed zeroed_exact 1
  obtain ⟨w, hbegin, -, hacc⟩ := (writes_begin zeroed 1).of_accepting oneByOne_accepting
  obtain ⟨f, hfault⟩ := extend_fault hno hkvw hbuf hacc
  refine hwrites.ne_fault oneByOne f ?_
  show oneByOne.sendHead zeroed 1 head = .error f
  rw [sendHead_begun hkvw head _ w hbegin, hfault]
  rfl

end FCGIWriter

/-! ## The heads of requests -/

namespace Request

variable (self : Request) (dynHeaders : List NameValuePair) (headerMul : MultiHeaderStrategy)

theorem rejects_returnError (value : Bytes) :
    HeaderMultilineStrategy.returnError.rejects value = true ↔ 10 ∈ value := by
  simp [HeaderMultilineStrategy.rejects]

theorem head_pairs :
    (self.head dynHeaders headerMul .returnError).pairs = self.pairsBefore dynHeaders headerMul := by
  rw [pairsBefore, head, httpHeaders_eq]

/-- The head is rejected for a field with a line feed, wherever it stands. -/
theorem head_rejected :
    (self.head dynHeaders headerMul .returnError).rejected = true ↔
      self.FieldNewline headerMul := by
  rw [head, httpHeaders_eq]
  show (List.any _ _) = true ↔ _
  rw [List.any_eq_true]
  constructor
  · rintro ⟨key, hkey, hrejects⟩
    rw [List.mem_filter] at hkey
    exact ⟨key, hkey.1, by simpa using hkey.2, (rejects_returnError _).mp hrejects⟩
  · rintro ⟨key, hkey, hskip, hnewline⟩
    refine ⟨key, List.mem_filter.mpr ⟨hkey, by simpa using hskip⟩, ?_⟩
    exact (rejects_returnError _).mpr hnewline

/-- The fields in front of it have none. -/
theorem httpHeaders_noNewline {p : NameValuePair}
    (hp : p ∈ (httpHeaders headerMul .returnError self.headers).1) : 10 ∉ p.valueData := by
  rw [httpHeaders_eq, List.mem_map] at hp
  obtain ⟨key, hkey, rfl⟩ := hp
  have haccepts := List.mem_takeWhile_imp hkey
  rw [Bool.not_eq_true', ← Bool.not_eq_true, rejects_returnError] at haccepts
  exact haccepts

theorem typePair_noNewline :
    (∀ p ∈ self.typePair, 10 ∉ p.valueData) ↔ ¬ self.TypeNewline := by
  unfold typePair TypeNewline
  cases self.headers.map.get HeaderName.contentType with
  | none => simp
  | some value => simp

end Request

/-- **When line feeds are kept out of PARAMS.** -/
theorem keepsNewlinesOut_iff (headerMul : MultiHeaderStrategy) (dynHeaders : List NameValuePair)
    (request : Request) :
    KeepsNewlinesOut headerMul dynHeaders request ↔
      ¬ request.TypeNewline ∧
        (request.FieldNewline headerMul → CanAdd (request.pairsBefore dynHeaders headerMul)) := by
  constructor
  · intro h
    refine ⟨?_, fun hfield => ?_⟩
    · rw [← request.typePair_noNewline]
      exact fun p hp => h.pairs p (List.mem_append_left _ hp)
    · rw [← request.head_pairs]
      exact FCGIWriter.canAdd_of_rejects (h.rejects (Or.inr hfield))
  · rintro ⟨htype, hadd⟩
    refine ⟨fun p hp => ?_, fun hnewline A hA requestId => ?_⟩
    · rcases List.mem_append.mp hp with hp | hp
      · exact request.typePair_noNewline.mpr htype p hp
      · exact request.httpHeaders_noNewline headerMul hp
    · have hfield := hnewline.resolve_left htype
      have hfits := hadd hfield
      rw [← request.head_pairs] at hfits
      exact FCGIWriter.sendHead_rejected hA requestId
        ((request.head_rejected dynHeaders headerMul).mpr hfield) hfits

/-- A GET with `content-type: a\nb`. -/
def typeWithNewline : Request where
  query := none
  method := [71, 69, 84]
  headers := {
    map := [(HeaderName.contentType, [97, 10, 98])]
    names := by simp [IsHeaderName, isTokenByte, HeaderName.contentType] }
  sizeHint := ⟨0, some 0, by simp⟩

/-- It is forwarded as `CONTENT_TYPE`. -/
theorem contentType_newline :
    ¬ ∀ (headerMul : MultiHeaderStrategy) (dynHeaders : List NameValuePair) (request : Request),
      KeepsNewlinesOut headerMul dynHeaders request := by
  intro h
  refine (h .combine [] typeWithNewline).pairs ⟨Request.contentType, [97, 10, 98]⟩ ?_ (by decide)
  refine List.mem_append_left _ ?_
  show _ ∈ typeWithNewline.typePair
  decide +kernel

end AsyncFcgi
