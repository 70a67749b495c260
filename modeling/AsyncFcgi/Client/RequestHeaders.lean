import AsyncFcgi.HttpParse
import AsyncFcgi.Fastcgi.NameValue
import Mathlib.Data.List.Nodup

/-!
# The headers of a request as CGI variables (`src/client/connection.rs`)

`forward` writes a variable `HTTP_*` for each header field but three. Its name is the name of the
field in upper case with `_` for `-`, so two fields whose names differ in `-` and `_` alone are
written under one name. Names of header fields are tokens, and `http` keeps them in lower case.

* `httpName_eq_iff`: which names become the same variable.
* `httpHeaders_eq`: the pairs, and whether a line feed stopped them.
* `oneVariable_iff`: one variable for each field if and only if no two names are the same but for
  `-` and `_`.
-/

namespace AsyncFcgi

/-- A byte of a token that is no upper case letter: ``!#$%&'*+-.^_`|~``, a digit or a letter. -/
def isTokenByte (c : UInt8) : Bool :=
  [33, 35, 36, 37, 38, 39, 42, 43, 45, 46, 94, 95, 96, 124, 126].contains c ||
    (48 ≤ c && c ≤ 57) || (97 ≤ c && c ≤ 122)

/-- `http::HeaderName`. -/
def IsHeaderName (name : Bytes) : Prop := name ≠ [] ∧ ∀ c ∈ name, isTokenByte c

instance (name : Bytes) : Decidable (IsHeaderName name) :=
  inferInstanceAs (Decidable (_ ∧ _))

/-- `http::HeaderMap` of a request. -/
structure RequestHeaders where
  map : HeaderMap
  names : ∀ field ∈ map, IsHeaderName field.1

/-- `HeaderMap::keys`: each name once, in the order of their first fields. -/
def RequestHeaders.keys (self : RequestHeaders) : List Bytes :=
  (self.map.map Prod.fst).eraseDups

/-- `MultiHeaderStrategy` (lines 115–122). -/
inductive MultiHeaderStrategy
  | combine
  | onlyFirst
  | onlyLast
  deriving DecidableEq, Repr

/-- `HeaderMultilineStrategy` (lines 125–130). -/
inductive HeaderMultilineStrategy
  | ignore
  | returnError
  deriving DecidableEq, Repr

namespace HeaderName

/-- `AUTHORIZATION`, `CONTENT_LENGTH` and `CONTENT_TYPE` of `http::header`. -/
def authorization : Bytes := [97, 117, 116, 104, 111, 114, 105, 122, 97, 116, 105, 111, 110]

@[inherit_doc authorization]
def contentLength : Bytes := [99, 111, 110, 116, 101, 110, 116, 45, 108, 101, 110, 103, 116, 104]

@[inherit_doc authorization]
def contentType : Bytes := [99, 111, 110, 116, 101, 110, 116, 45, 116, 121, 112, 101]

end HeaderName

/-- `skip` (line 313). -/
def skip : List Bytes :=
  [HeaderName.authorization, HeaderName.contentLength, HeaderName.contentType]

/-- `upper` (lines 327–333). -/
def upper (c : UInt8) : UInt8 :=
  if c = 45 then 95 else if 97 ≤ c ∧ c ≤ 122 then c - (97 - 65) else c

/-- `k`: the variable for a field, behind `HTTP_` (lines 324–335). -/
def httpName (key : Bytes) : Bytes := [72, 84, 84, 80, 95] ++ key.map upper

/-- The body of the loop of `MultiHeaderStrategy::Combine` (lines 352–359), on
`(first, value_buf)`. -/
def combineBody (st : Bool × Bytes) (v : Bytes) : Bool × Bytes :=
  let (first, valueBuf) := st
  if !first then (true, valueBuf ++ v) else (first, valueBuf ++ [44] ++ v)

/-- `MultiHeaderStrategy::Combine` (lines 349–361). -/
def combine (values : List Bytes) : Bytes := (values.foldl combineBody (false, [])).2

/-- `value` (lines 348–370). -/
def httpValue (headerMul : MultiHeaderStrategy) (headers : RequestHeaders) (key : Bytes) : Bytes :=
  match headerMul with
  | .combine => combine (headers.map.getAll key)
  | .onlyFirst => (headers.map.get key).getD []
  | .onlyLast => (headers.map.getAll key).getLast?.getD []

/-- The check for a line feed (lines 371–372). -/
def HeaderMultilineStrategy.rejects (headerNl : HeaderMultilineStrategy) (value : Bytes) : Bool :=
  headerNl = .returnError && value.contains 10

/-- The loop over the keys (lines 315–381): the pairs for `add_kv`, and whether a line feed ended
it. -/
def httpPairs (headerMul : MultiHeaderStrategy) (headerNl : HeaderMultilineStrategy)
    (headers : RequestHeaders) : List Bytes → List NameValuePair × Bool
  | [] => ([], false)
  | key :: keys =>
    if key ∈ skip then httpPairs headerMul headerNl headers keys
    else
      let value := httpValue headerMul headers key
      if headerNl.rejects value then ([], true)
      else
        let (pairs, rejected) := httpPairs headerMul headerNl headers keys
        (⟨httpName key, value⟩ :: pairs, rejected)

/-- All HTTP headers (lines 313–382). -/
def httpHeaders (headerMul : MultiHeaderStrategy) (headerNl : HeaderMultilineStrategy)
    (headers : RequestHeaders) : List NameValuePair × Bool :=
  httpPairs headerMul headerNl headers headers.keys

/-! ## Specification -/

/-- A name with `_` for each `-`. -/
def underscored (name : Bytes) : Bytes := name.map fun c => if c = 45 then 95 else c

/-- What a strategy makes of the values of a field. -/
def MultiHeaderStrategy.Picks : MultiHeaderStrategy → List Bytes → Bytes → Prop
  | .combine, values, value => value = [44].intercalate values
  | .onlyFirst, values, value => values.head? = some value
  | .onlyLast, values, value => values.getLast? = some value

/-- One variable for each field that is not skipped: no name twice, and the value that the strategy
makes of the values of the field. -/
structure OneVariable (headerMul : MultiHeaderStrategy) (headers : RequestHeaders)
    (pairs : List NameValuePair) : Prop where
  nodup : (pairs.map NameValuePair.nameData).Nodup
  ofField : ∀ p ∈ pairs, ∃ key ∈ headers.keys, key ∉ skip ∧ p.nameData = httpName key ∧
    headerMul.Picks (headers.map.getAll key) p.valueData

/-- The fields that are forwarded: those that are not skipped, up to one with a line feed if that
is an error. -/
def RequestHeaders.forwarded (self : RequestHeaders) (headerMul : MultiHeaderStrategy)
    (headerNl : HeaderMultilineStrategy) : List Bytes :=
  (self.keys.filter (· ∉ skip)).takeWhile fun key => !headerNl.rejects (httpValue headerMul self key)

/-! ## Names -/

theorem nodup_eraseDups {α : Type} [BEq α] [LawfulBEq α] (n : ℕ) :
    ∀ {xs : List α}, xs.length ≤ n → xs.eraseDups.Nodup := by
  induction n with
  | zero =>
    intro xs hlen
    rw [List.eq_nil_of_length_eq_zero (Nat.le_zero.mp hlen)]
    exact List.nodup_nil
  | succ n ih =>
    intro xs hlen
    cases xs with
    | nil => exact List.nodup_nil
    | cons x xs =>
      rw [List.eraseDups_cons, List.nodup_cons, List.mem_eraseDups]
      refine ⟨by simp, ih ?_⟩
      have hfilter := List.length_filter_le (fun y => !y == x) xs
      rw [List.length_cons] at hlen
      omega

namespace RequestHeaders

variable (headers : RequestHeaders)

theorem nodup_keys : headers.keys.Nodup := nodup_eraseDups _ le_rfl

theorem mem_keys {key : Bytes} : key ∈ headers.keys ↔ ∃ value, (key, value) ∈ headers.map := by
  rw [keys, List.mem_eraseDups, List.mem_map]
  constructor
  · rintro ⟨⟨name, value⟩, hmem, rfl⟩
    exact ⟨value, hmem⟩
  · rintro ⟨value, hmem⟩
    exact ⟨(key, value), hmem, rfl⟩

theorem isHeaderName {key : Bytes} (h : key ∈ headers.keys) : IsHeaderName key := by
  obtain ⟨value, hmem⟩ := headers.mem_keys.mp h
  exact headers.names _ hmem

/-- A key has a value. -/
theorem getAll_ne_nil {key : Bytes} (h : key ∈ headers.keys) : headers.map.getAll key ≠ [] := by
  obtain ⟨value, hmem⟩ := headers.mem_keys.mp h
  refine List.ne_nil_of_mem (a := value) ?_
  rw [HeaderMap.getAll, List.mem_map]
  exact ⟨(key, value), List.mem_filter.mpr ⟨hmem, by simp⟩, rfl⟩

end RequestHeaders

/-- `get` is the first of `get_all`. -/
theorem HeaderMap.get_eq_head? (map : HeaderMap) (name : Bytes) :
    map.get name = (map.getAll name).head? := by
  rw [HeaderMap.get, HeaderMap.getAll, List.head?_map, List.head?_filter]

theorem isTokenByte_not_upper {c : UInt8} (h : isTokenByte c) : ¬ (65 ≤ c ∧ c ≤ 90) := by
  simp only [isTokenByte, Bool.or_eq_true, Bool.and_eq_true, decide_eq_true_eq,
    List.contains_iff_mem, List.mem_cons, List.not_mem_nil, or_false, UInt8.le_iff_toNat_le,
    ← UInt8.toNat_inj] at h
  rw [UInt8.le_iff_toNat_le, UInt8.le_iff_toNat_le]
  simp at h ⊢
  omega

theorem upper_underscore (c : UInt8) : upper (if c = 45 then 95 else c) = upper c := by
  by_cases hdash : c = 45
  · rw [if_pos hdash, hdash]
    rfl
  · rw [if_neg hdash]

/-- On the bytes of a name, `upper` loses `-` and nothing else. -/
theorem lower_upper {c : UInt8} (h : isTokenByte c) :
    (if 65 ≤ upper c ∧ upper c ≤ 90 then upper c + 32 else upper c) =
      if c = 45 then 95 else c := by
  have hno := isTokenByte_not_upper h
  unfold upper
  by_cases hdash : c = 45
  · simp [hdash]
  rw [if_neg hdash, if_neg hdash]
  by_cases hletter : 97 ≤ c ∧ c ≤ 122
  · rw [if_pos hletter, if_pos]
    · exact UInt8.sub_add_cancel c 32
    · have hsub : (c - 32).toNat = c.toNat - 32 := by
        refine UInt8.toNat_sub_of_le c 32 ?_
        rw [UInt8.le_iff_toNat_le] at hletter ⊢
        exact Nat.le_trans (by decide) hletter.1
      rw [UInt8.le_iff_toNat_le, UInt8.le_iff_toNat_le] at hletter ⊢
      simp at hletter ⊢
      omega
  · rw [if_neg hletter, if_neg hno]

theorem lowercase_upper {name : Bytes} (h : IsHeaderName name) :
    lowercase (name.map upper) = underscored name := by
  rw [lowercase, underscored, List.map_map]
  refine List.map_congr_left fun c hc => ?_
  exact lower_upper (h.2 c hc)

/-- Names become the same variable if they are the same but for `-` and `_`. -/
theorem httpName_eq_iff {name other : Bytes} (hname : IsHeaderName name)
    (hother : IsHeaderName other) :
    httpName name = httpName other ↔ underscored name = underscored other := by
  rw [httpName, httpName, List.append_cancel_left_eq]
  constructor
  · intro h
    rw [← lowercase_upper hname, ← lowercase_upper hother, h]
  · intro h
    have hupper : ∀ n : Bytes, n.map upper = (underscored n).map upper := by
      intro n
      rw [underscored, List.map_map]
      exact List.map_congr_left fun c _ => (upper_underscore c).symm
    rw [hupper name, hupper other, h]

/-! ## Values -/

/-- Behind the first value: each one with a comma in front. -/
theorem foldl_combineBody (values : List Bytes) : ∀ valueBuf : Bytes,
    values.foldl combineBody (true, valueBuf) =
      (true, valueBuf ++ values.flatMap ([44] ++ ·)) := by
  induction values with
  | nil => intro valueBuf; simp
  | cons v values ih =>
    intro valueBuf
    have hbody : combineBody (true, valueBuf) v = (true, valueBuf ++ [44] ++ v) := rfl
    rw [List.foldl_cons, hbody, ih, List.flatMap_cons]
    simp only [List.append_assoc]

theorem intercalate_cons (sep v : Bytes) (values : List Bytes) :
    sep.intercalate (v :: values) = v ++ values.flatMap (sep ++ ·) := by
  induction values generalizing v with
  | nil => simp
  | cons w values ih => rw [List.intercalate_cons_cons, ih, List.flatMap_cons]; simp

/-- `Combine` is the join with commas. -/
theorem combine_eq (values : List Bytes) : combine values = [44].intercalate values := by
  cases values with
  | nil => rfl
  | cons v values =>
    have hbody : combineBody (false, []) v = (true, v) := rfl
    rw [combine, List.foldl_cons, hbody, foldl_combineBody, intercalate_cons]

/-- The value of a field is what the strategy makes of its values. -/
theorem httpValue_picks (headerMul : MultiHeaderStrategy) (headers : RequestHeaders) {key : Bytes}
    (h : key ∈ headers.keys) :
    headerMul.Picks (headers.map.getAll key) (httpValue headerMul headers key) := by
  obtain ⟨v, values, hall⟩ := List.exists_cons_of_ne_nil (headers.getAll_ne_nil h)
  cases headerMul with
  | combine => exact combine_eq _
  | onlyFirst =>
    show (headers.map.getAll key).head? = some ((headers.map.get key).getD [])
    rw [HeaderMap.get_eq_head?, hall]
    rfl
  | onlyLast =>
    show (headers.map.getAll key).getLast? = some ((headers.map.getAll key).getLast?.getD [])
    rw [hall, List.getLast?_cons]
    rfl

/-! ## Pairs -/

theorem httpPairs_eq (headerMul : MultiHeaderStrategy) (headerNl : HeaderMultilineStrategy)
    (headers : RequestHeaders) (keys : List Bytes) :
    httpPairs headerMul headerNl headers keys =
      (((keys.filter (· ∉ skip)).takeWhile fun key =>
        !headerNl.rejects (httpValue headerMul headers key)).map
          fun key => ⟨httpName key, httpValue headerMul headers key⟩,
        (keys.filter (· ∉ skip)).any fun key =>
          headerNl.rejects (httpValue headerMul headers key)) := by
  induction keys with
  | nil => rfl
  | cons key keys ih =>
    rw [httpPairs]
    by_cases hskip : key ∈ skip
    · rw [if_pos hskip, ih, List.filter_cons_of_neg (by simpa using hskip)]
    · rw [if_neg hskip, List.filter_cons_of_pos (by simpa using hskip), List.takeWhile_cons,
        List.any_cons, ih]
      show (if headerNl.rejects (httpValue headerMul headers key) then _ else _) = _
      by_cases hrejects : headerNl.rejects (httpValue headerMul headers key)
      · simp [hrejects]
      · simp [hrejects]

/-- The pairs of the fields that are forwarded, and whether a line feed is in a value. -/
theorem httpHeaders_eq (headerMul : MultiHeaderStrategy) (headerNl : HeaderMultilineStrategy)
    (headers : RequestHeaders) :
    httpHeaders headerMul headerNl headers =
      ((headers.forwarded headerMul headerNl).map
        fun key => ⟨httpName key, httpValue headerMul headers key⟩,
        (headers.keys.filter (· ∉ skip)).any fun key =>
          headerNl.rejects (httpValue headerMul headers key)) :=
  httpPairs_eq headerMul headerNl headers headers.keys

theorem RequestHeaders.mem_forwarded {headers : RequestHeaders} {headerMul : MultiHeaderStrategy}
    {headerNl : HeaderMultilineStrategy} {key : Bytes}
    (h : key ∈ headers.forwarded headerMul headerNl) : key ∈ headers.keys ∧ key ∉ skip := by
  have hmem := (List.takeWhile_prefix _).subset h
  rw [List.mem_filter] at hmem
  exact ⟨hmem.1, by simpa using hmem.2⟩

theorem RequestHeaders.nodup_forwarded (headers : RequestHeaders) (headerMul : MultiHeaderStrategy)
    (headerNl : HeaderMultilineStrategy) : (headers.forwarded headerMul headerNl).Nodup :=
  (headers.nodup_keys.filter _).sublist (List.takeWhile_prefix _).sublist

/-- **Which header maps become one variable for each field.** -/
theorem oneVariable_iff (headerMul : MultiHeaderStrategy) (headerNl : HeaderMultilineStrategy)
    (headers : RequestHeaders) :
    OneVariable headerMul headers (httpHeaders headerMul headerNl headers).1 ↔
      ∀ key ∈ headers.forwarded headerMul headerNl,
        ∀ other ∈ headers.forwarded headerMul headerNl,
          underscored key = underscored other → key = other := by
  have hnames : (httpHeaders headerMul headerNl headers).1.map NameValuePair.nameData =
      (headers.forwarded headerMul headerNl).map httpName := by
    rw [httpHeaders_eq, List.map_map]
    rfl
  have hsame : ∀ key ∈ headers.forwarded headerMul headerNl,
      ∀ other ∈ headers.forwarded headerMul headerNl,
        (httpName key = httpName other ↔ underscored key = underscored other) := by
    intro key hkey other hother
    exact httpName_eq_iff (headers.isHeaderName (RequestHeaders.mem_forwarded hkey).1)
      (headers.isHeaderName (RequestHeaders.mem_forwarded hother).1)
  constructor
  · intro hone key hkey other hother heq
    have hnodup := hone.nodup
    rw [hnames] at hnodup
    exact List.inj_on_of_nodup_map hnodup hkey hother ((hsame key hkey other hother).mpr heq)
  · intro hinj
    refine ⟨?_, fun p hp => ?_⟩
    · rw [hnames]
      refine List.Nodup.map_on (fun key hkey other hother heq => ?_) (headers.nodup_forwarded _ _)
      exact hinj key hkey other hother ((hsame key hkey other hother).mp heq)
    · rw [httpHeaders_eq, List.mem_map] at hp
      obtain ⟨key, hkey, rfl⟩ := hp
      obtain ⟨hmem, hskip⟩ := RequestHeaders.mem_forwarded hkey
      exact ⟨key, hmem, hskip, rfl, httpValue_picks headerMul headers hmem⟩

/-- `x-a: 1` and `x_a: 2`. -/
def twoSpellings : RequestHeaders where
  map := [([120, 45, 97], [49]), ([120, 95, 97], [50])]
  names := by simp [IsHeaderName, isTokenByte]

/-- They are written as two values of `HTTP_X_A`. -/
theorem httpHeaders_repeated :
    ¬ ∀ (headerMul : MultiHeaderStrategy) (headerNl : HeaderMultilineStrategy)
        (headers : RequestHeaders),
      OneVariable headerMul headers (httpHeaders headerMul headerNl headers).1 := by
  intro h
  have hnames : (httpHeaders .combine .ignore twoSpellings).1.map NameValuePair.nameData =
      [httpName [120, 45, 97], httpName [120, 45, 97]] := by decide +kernel
  have hnodup := (h .combine .ignore twoSpellings).nodup
  rw [hnames] at hnodup
  exact (List.nodup_cons.mp hnodup).1 List.mem_cons_self

end AsyncFcgi
