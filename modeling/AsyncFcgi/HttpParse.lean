import AsyncFcgi.Bytes

/-!
# CGI header blocks (`src/httpparse.rs`)

`parse` over what it uses of the crates `httparse` and `http`, which is a parameter (`Http`).
A header block may be cut anywhere, so what is said of `httparse` is that more bytes change
neither a complete block nor an error (`Http.PrefixStable`).

* `parse_block`, `parse_short`: a block is parsed once all of it is there, and not before.
* `parse_keepsHeaders_iff`: every value of a block is in the map if and only if no name repeats.
-/

namespace AsyncFcgi

open Lib

/-- `httparse::Status`: the offset of the first byte behind the block and the headers in it,
or `Partial`. -/
inductive HttpStatus
  | complete (pos : ℕ) (headers : List (Bytes × Bytes))
  | more
  deriving DecidableEq, Repr

/-- What the crate calls of `httparse` and `http`. -/
structure Http where
  /-- `httparse::parse_headers` with room for a number of headers. -/
  parseHeaders : ℕ → Bytes → Except Unit HttpStatus
  /-- `HeaderName::from_bytes`. -/
  headerName : Bytes → Option Bytes
  /-- `StatusCode::from_bytes`. -/
  statusCode : Bytes → Option ℕ

/-- More bytes change neither a complete block nor an error, and the names in a block are
valid. -/
structure Http.PrefixStable (http : Http) : Prop where
  pos_le {n bs pos headers} :
    http.parseHeaders n bs = .ok (.complete pos headers) → pos ≤ bs.length
  complete_append {n bs pos headers} : http.parseHeaders n bs = .ok (.complete pos headers) →
    ∀ more, http.parseHeaders n (bs ++ more) = .ok (.complete pos headers)
  error_append {n bs e} : http.parseHeaders n bs = .error e →
    ∀ more, http.parseHeaders n (bs ++ more) = .error e
  headerName_isSome {n bs pos headers} : http.parseHeaders n bs = .ok (.complete pos headers) →
    ∀ h ∈ headers, (http.headerName h.1).isSome

/-- `http::HeaderMap`: names in lower case with a value each. -/
abbrev HeaderMap := List (Bytes × Bytes)

namespace HeaderMap

/-- `HeaderMap::insert`: all values the name had are gone. -/
def insert (map : HeaderMap) (name value : Bytes) : HeaderMap :=
  map.filter (fun h => h.1 ≠ name) ++ [(name, value)]

/-- `HeaderMap::get` for a name in lower case. -/
def get (map : HeaderMap) (name : Bytes) : Option Bytes :=
  (map.find? fun h => h.1 = name).map Prod.snd

/-- `HeaderMap::get_all` for a name in lower case. -/
def getAll (map : HeaderMap) (name : Bytes) : List Bytes :=
  (map.filter fun h => h.1 = name).map Prod.snd

end HeaderMap

/-- `MAX_HEADERS` (line 11). -/
def maxHeaders : ℕ := 100

/-- `ParseResult` (lines 15–19). -/
inductive ParseResult
  | ok (bytes : Bytes)
  | pending
  | err
  deriving DecidableEq, Repr

variable (http : Http)

/-- The loop over the headers of a block (lines 29–39). -/
def insertHeaders (headerMap : HeaderMap) : List (Bytes × Bytes) → Except Fault HeaderMap
  | [] => .ok headerMap
  | header :: headers =>
    match http.headerName header.1 with
    | none => .error .invalidHeaderName
    | some name => insertHeaders (headerMap.insert name header.2) headers

/-- `parse` (lines 21–48). -/
def parse (bytes : Bytes) (headerMap : HeaderMap) : Except Fault (ParseResult × HeaderMap) :=
  match http.parseHeaders maxHeaders bytes with
  | .error _ => .ok (.err, headerMap)
  | .ok .more => .ok (.pending, headerMap)
  | .ok (.complete pos headers) => do
    let headerMap ← insertHeaders http headerMap headers
    let bytes ← advance bytes pos
    .ok (.ok bytes, headerMap)

/-- What `parse` does: report an error, ask for more, or insert the headers of a block. -/
inductive Parsed (bytes : Bytes) (headerMap : HeaderMap) : ParseResult → HeaderMap → Prop
  | err {e} (hp : http.parseHeaders maxHeaders bytes = .error e) :
      Parsed bytes headerMap .err headerMap
  | pending (hp : http.parseHeaders maxHeaders bytes = .ok .more) :
      Parsed bytes headerMap .pending headerMap
  | ok {pos headers headerMap' left}
      (hp : http.parseHeaders maxHeaders bytes = .ok (.complete pos headers))
      (hmap : insertHeaders http headerMap headers = .ok headerMap')
      (hleft : advance bytes pos = .ok left) : Parsed bytes headerMap (.ok left) headerMap'

theorem parse_parsed {bytes : Bytes} {headerMap headerMap' : HeaderMap} {res : ParseResult}
    (h : parse http bytes headerMap = .ok (res, headerMap')) :
    Parsed http bytes headerMap res headerMap' := by
  unfold parse at h
  cases hp : http.parseHeaders maxHeaders bytes with
  | error e =>
    rw [hp] at h
    cases h
    exact .err hp
  | ok status =>
    cases status with
    | more =>
      rw [hp] at h
      cases h
      exact .pending hp
    | complete pos headers =>
      simp only [hp] at h
      obtain ⟨map, hmap, h⟩ := bind_eq_ok.mp h
      obtain ⟨left, hleft, h⟩ := bind_eq_ok.mp h
      cases h
      exact .ok hp hmap hleft

/-- `block` is a complete header block: `httparse` accepts it and uses all of it. -/
def Http.Block (block : Bytes) : Prop :=
  ∃ headers, http.parseHeaders maxHeaders block = .ok (.complete block.length headers)

variable {http} {block : Bytes}

/-- Of a part of a block nothing is known yet. -/
theorem parseHeaders_short (hs : http.PrefixStable) (hblock : http.Block block) {bs : Bytes}
    (hpre : bs <+: block) (hlt : bs.length < block.length) :
    http.parseHeaders maxHeaders bs = .ok .more := by
  obtain ⟨headers, hb⟩ := hblock
  obtain ⟨rest, rfl⟩ := hpre
  cases hp : http.parseHeaders maxHeaders bs with
  | error e =>
    rw [hs.error_append hp rest] at hb
    cases hb
  | ok status =>
    cases status with
    | more => rfl
    | complete pos headers' =>
      rw [hs.complete_append hp rest] at hb
      simp only [Except.ok.injEq, HttpStatus.complete.injEq] at hb
      have := hs.pos_le hp
      omega

theorem parse_short (hs : http.PrefixStable) (hblock : http.Block block) {bs : Bytes}
    (hpre : bs <+: block) (hlt : bs.length < block.length) (headerMap : HeaderMap) :
    parse http bs headerMap = .ok (.pending, headerMap) := by
  rw [parse, parseHeaders_short hs hblock hpre hlt]

/-- With the whole block there, the result is the bytes behind it. -/
theorem parse_block (hs : http.PrefixStable) (hblock : http.Block block) {rest : Bytes}
    {headerMap headerMap' : HeaderMap} {res : ParseResult}
    (h : parse http (block ++ rest) headerMap = .ok (res, headerMap')) : res = .ok rest := by
  obtain ⟨headers, hb⟩ := hblock
  rw [parse, hs.complete_append hb rest] at h
  simp only [advance_append] at h
  obtain ⟨map, -, h⟩ := bind_eq_ok.mp h
  simp only [ok_bind, Except.ok.injEq, Prod.mk.injEq] at h
  exact h.1.symm

/-- A parser that knows one block, without headers. -/
def onlyBlock (block : Bytes) : Http where
  parseHeaders _ bs :=
    if block <+: bs then .ok (.complete block.length [])
    else if bs <+: block then .ok .more
    else .error ()
  headerName := some
  statusCode _ := none

theorem onlyBlock_block (block : Bytes) : (onlyBlock block).Block block :=
  ⟨[], if_pos (List.prefix_refl block)⟩

theorem onlyBlock_complete {block bs : Bytes} {n pos : ℕ} {headers : List (Bytes × Bytes)}
    (h : (onlyBlock block).parseHeaders n bs = .ok (.complete pos headers)) :
    block <+: bs ∧ pos = block.length ∧ headers = [] := by
  simp only [onlyBlock] at h
  split at h
  · simp only [Except.ok.injEq, HttpStatus.complete.injEq] at h
    exact ⟨‹_›, h.1.symm, h.2.symm⟩
  · split at h <;> simp at h

theorem onlyBlock_prefixStable (block : Bytes) : (onlyBlock block).PrefixStable where
  pos_le h := by
    obtain ⟨hpre, rfl, -⟩ := onlyBlock_complete h
    exact hpre.length_le
  complete_append h more := by
    obtain ⟨hpre, rfl, rfl⟩ := onlyBlock_complete h
    exact if_pos (hpre.trans (List.prefix_append _ more))
  error_append {n bs e} h more := by
    simp only [onlyBlock] at h ⊢
    split at h
    · cases h
    · rename_i hno
      split at h
      · cases h
      · rename_i hno'
        rw [if_neg, if_neg]
        · exact fun hpre => hno' ((List.prefix_append bs more).trans hpre)
        · intro hpre
          rcases List.prefix_or_prefix_of_prefix hpre (List.prefix_append bs more) with h | h
          · exact hno h
          · exact hno' h
  headerName_isSome h hd hmem := by
    obtain ⟨-, -, rfl⟩ := onlyBlock_complete h
    cases hmem

/-! ## Every header of a block -/

/-- ASCII letters in lower case. -/
def lowercase (name : Bytes) : Bytes := name.map fun b => if 65 ≤ b ∧ b ≤ 90 then b + 32 else b

/-- `block` is complete, with these header lines: `httparse` finds them in order whatever follows,
and `http` spells their names in lower case. -/
structure Http.HeaderBlock (http : Http) (block : Bytes) (lines : List (Bytes × Bytes)) : Prop where
  length_le : lines.length ≤ maxHeaders
  complete : ∀ rest, http.parseHeaders maxHeaders (block ++ rest) =
    .ok (.complete block.length lines)
  names : ∀ line ∈ lines, http.headerName line.1 = some (lowercase line.1)

/-- The values of the lines with a name, in order. -/
def valuesOf (lines : List (Bytes × Bytes)) (name : Bytes) : List Bytes :=
  (lines.filter fun line => lowercase line.1 = name).map Prod.snd

/-- No header is lost: behind a complete block the map has all values of each name in the block,
and what it had of other names; the rest of the bytes is returned; and with an incomplete block
or an error the map is as it was. -/
structure KeepsHeaders (http : Http) (block : Bytes) (lines : List (Bytes × Bytes))
    (headerMap : HeaderMap) (rest : Bytes) : Prop where
  complete : ∃ headerMap', parse http (block ++ rest) headerMap = .ok (.ok rest, headerMap') ∧
    ∀ name, headerMap'.getAll name =
      if valuesOf lines name = [] then headerMap.getAll name else valuesOf lines name
  unchanged : ∀ bytes res headerMap', parse http bytes headerMap = .ok (res, headerMap') →
    res = .pending ∨ res = .err → headerMap' = headerMap

/-- `insert` leaves one value of the name, and all of the others. -/
theorem HeaderMap.getAll_insert (map : HeaderMap) (name value other : Bytes) :
    (map.insert name value).getAll other = if name = other then [value] else map.getAll other := by
  unfold HeaderMap.insert HeaderMap.getAll
  rw [List.filter_append, List.filter_filter]
  by_cases h : name = other
  · subst h
    have hnone : map.filter (fun h => decide (h.1 = name) && decide (h.1 ≠ name)) = [] := by
      simp
    rw [if_pos rfl, hnone]
    simp
  · have hsame : map.filter (fun h => decide (h.1 = other) && decide (h.1 ≠ name)) =
        map.filter (fun h => decide (h.1 = other)) := by
      refine List.filter_congr fun x _ => ?_
      by_cases hx : x.1 = other
      · rw [hx]
        simp [Ne.symm h]
      · simp [hx]
    rw [if_neg h, hsame]
    simp [h]

/-- Of each name in the block, its last value is in the map. -/
theorem insertHeaders_getAll (lines : List (Bytes × Bytes)) : ∀ (headerMap : HeaderMap),
    (∀ line ∈ lines, http.headerName line.1 = some (lowercase line.1)) →
    ∃ headerMap', insertHeaders http headerMap lines = .ok headerMap' ∧
      ∀ name, headerMap'.getAll name =
        ((valuesOf lines name).getLast?.map fun value => [value]).getD (headerMap.getAll name) := by
  induction lines with
  | nil => exact fun _ _ => ⟨_, rfl, fun name => rfl⟩
  | cons line lines ih =>
    intro headerMap hnames
    obtain ⟨headerMap', hr, hget⟩ := ih (headerMap.insert (lowercase line.1) line.2)
      fun l hl => hnames l (List.mem_cons_of_mem _ hl)
    refine ⟨headerMap', ?_, fun name => ?_⟩
    · rw [insertHeaders, hnames line List.mem_cons_self]
      exact hr
    · rw [hget, HeaderMap.getAll_insert]
      by_cases hname : lowercase line.1 = name
      · have hvalues : valuesOf (line :: lines) name = line.2 :: valuesOf lines name := by
          simp [valuesOf, hname]
        rw [hvalues, if_pos hname, List.getLast?_cons]
        cases (valuesOf lines name).getLast? <;> rfl
      · have hvalues : valuesOf (line :: lines) name = valuesOf lines name := by
          simp [valuesOf, hname]
        rw [hvalues, if_neg hname]

theorem length_valuesOf (lines : List (Bytes × Bytes)) (name : Bytes) :
    (valuesOf lines name).length = (lines.map fun line => lowercase line.1).count name := by
  rw [valuesOf, List.length_map, ← List.countP_eq_length_filter, List.count, List.countP_map]
  refine List.countP_congr fun line _ => ?_
  simp

/-- **No header of a block is lost if and only if no name repeats**, whatever follows the block
and whatever the map held before. -/
theorem parse_keepsHeaders_iff (http : Http) {block : Bytes} {lines : List (Bytes × Bytes)}
    (hblock : http.HeaderBlock block lines) (headerMap : HeaderMap) (rest : Bytes) :
    KeepsHeaders http block lines headerMap rest ↔
      (lines.map fun line => lowercase line.1).Nodup := by
  obtain ⟨headerMap', hr, hget⟩ := insertHeaders_getAll lines headerMap hblock.names
  have hparse : parse http (block ++ rest) headerMap = .ok (.ok rest, headerMap') := by
    rw [parse, hblock.complete rest]
    simp only [hr, ok_bind, advance_append]
  rw [List.nodup_iff_count_le_one]
  constructor
  · rintro ⟨⟨headerMap'', hr', hall⟩, -⟩ name
    obtain rfl : headerMap' = headerMap'' := by
      rw [hparse] at hr'
      cases hr'
      rfl
    have hname := hall name
    rw [← length_valuesOf]
    rw [hget name] at hname
    generalize valuesOf lines name = values at hname ⊢
    rcases List.eq_nil_or_concat values with rfl | ⟨init, last, rfl⟩
    · exact Nat.zero_le 1
    · -- the map has one value of the name
      rw [List.concat_eq_append, List.getLast?_concat, if_neg (by simp)] at hname
      rw [List.concat_eq_append, ← hname]
      exact Nat.le_refl 1
  · intro hone
    refine ⟨⟨headerMap', hparse, fun name => ?_⟩, fun bytes res map hr' hres => ?_⟩
    · have hle := hone name
      rw [← length_valuesOf] at hle
      rw [hget name]
      generalize valuesOf lines name = values at hle ⊢
      match values, hle with
      | [], _ => rfl
      | [value], _ => rfl
    · unfold parse at hr'
      split at hr'
      · cases hr'
        rfl
      · cases hr'
        rfl
      · obtain ⟨m, -, hr'⟩ := bind_eq_ok.mp hr'
        obtain ⟨b, -, hr'⟩ := bind_eq_ok.mp hr'
        cases hr'
        rcases hres with h | h <;> cases h

/-- A parser that knows one block with its lines. -/
def blockWith (block : Bytes) (lines : List (Bytes × Bytes)) : Http where
  parseHeaders _ bs :=
    if block <+: bs then .ok (.complete block.length lines)
    else if bs <+: block then .ok .more
    else .error ()
  headerName name := some (lowercase name)
  statusCode _ := none

theorem blockWith_headerBlock {block : Bytes} {lines : List (Bytes × Bytes)}
    (h : lines.length ≤ maxHeaders) : (blockWith block lines).HeaderBlock block lines :=
  ⟨h, fun rest => if_pos (List.prefix_append block rest), fun _ _ => rfl⟩

/-- `"A: 1\r\nB: 2\r\n\r\n"`. -/
def twoNames : Bytes := [65, 58, 32, 49, 13, 10, 66, 58, 32, 50, 13, 10, 13, 10]

theorem parse_keepsHeaders_iff_twoNames :
    KeepsHeaders (blockWith twoNames [([65], [49]), ([66], [50])]) twoNames
      [([65], [49]), ([66], [50])] [] [104, 105] :=
  (parse_keepsHeaders_iff _ (blockWith_headerBlock (by decide)) [] [104, 105]).mpr (by decide)

/-- `"A: 1\r\na: 2\r\n\r\n"`: a name twice, in different case. -/
def twoValues : Bytes := [65, 58, 32, 49, 13, 10, 97, 58, 32, 50, 13, 10, 13, 10]

theorem parse_drops_repeated :
    (blockWith twoValues [([65], [49]), ([97], [50])]).HeaderBlock twoValues
        [([65], [49]), ([97], [50])] ∧
      ¬ KeepsHeaders (blockWith twoValues [([65], [49]), ([97], [50])]) twoValues
        [([65], [49]), ([97], [50])] [] [104, 105] := by
  refine ⟨blockWith_headerBlock (by decide), ?_⟩
  rintro ⟨⟨headerMap', hr, hall⟩, -⟩
  have hlast : parse (blockWith twoValues [([65], [49]), ([97], [50])])
      (twoValues ++ [104, 105]) [] = .ok (.ok [104, 105], [([97], [50])]) := by
    decide
  rw [hlast] at hr
  cases hr
  exact absurd (hall [97]) (by decide)

end AsyncFcgi
