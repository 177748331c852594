import Fasthttp.Args

/-! # Header keys: normal form, comparison and forbidden trailers -/

namespace Fasthttp

/-! ## The normal form of a key -/

def normalizeTail : Bytes → Bytes
  | [] => []
  | [c] => [if c = ch '-' then c else toLowerTable c]
  | c :: d :: b =>
    if c = ch '-' then c :: toUpperTable d :: normalizeTail b
    else toLowerTable c :: normalizeTail (d :: b)

def normalizeHeaderKeyV2 : Bytes → Bytes
  | [] => []
  | c :: b => toUpperTable c :: normalizeTail b

def initHeaderK (key : Bytes) (disableNormalizing : Bool) : Bytes :=
  if disableNormalizing then key else normalizeHeaderKeyV2 key

@[simp] theorem normalizeTail_length (b : Bytes) : (normalizeTail b).length = b.length := by
  fun_induction normalizeTail b <;> simp_all

@[simp] theorem normalizeHeaderKeyV2_length (b : Bytes) :
    (normalizeHeaderKeyV2 b).length = b.length := by
  cases b <;> simp [normalizeHeaderKeyV2]

theorem toLowerTable_idem (c : Byte) : toLowerTable (toLowerTable c) = toLowerTable c := by
  revert c; exact forall_byte (by decide +kernel)

theorem toUpperTable_idem (c : Byte) : toUpperTable (toUpperTable c) = toUpperTable c := by
  revert c; exact forall_byte (by decide +kernel)

theorem toLowerTable_eq_dash (c : Byte) : toLowerTable c = ch '-' ↔ c = ch '-' := by
  revert c; exact forall_byte (by decide +kernel)

theorem normalizeTail_idem (b : Bytes) : normalizeTail (normalizeTail b) = normalizeTail b := by
  fun_induction normalizeTail b with
  | case1 => rfl
  | case2 c =>
    by_cases hc : c = ch '-'
    · simp [normalizeTail, hc]
    · simp [normalizeTail, hc, toLowerTable_idem]
  | case3 d b ih => simp [normalizeTail, toUpperTable_idem, ih]
  | case4 c d b hc ih =>
    -- the normal form of the rest starts with some byte, so the first byte is looked at alone
    obtain ⟨e, t, he⟩ : ∃ e t, normalizeTail (d :: b) = e :: t := by
      rcases hn : normalizeTail (d :: b) with _ | ⟨e, t⟩
      · have := normalizeTail_length (d :: b); simp [hn] at this
      · exact ⟨e, t, rfl⟩
    rw [he] at ih ⊢
    simp [normalizeTail, hc, toLowerTable_eq_dash, toLowerTable_idem, ih]

theorem normalizeHeaderKeyV2_idem (b : Bytes) :
    normalizeHeaderKeyV2 (normalizeHeaderKeyV2 b) = normalizeHeaderKeyV2 b := by
  cases b <;> simp [normalizeHeaderKeyV2, toUpperTable_idem, normalizeTail_idem]

def Caseless (x : Byte) : Prop := ∀ c, (toLowerTable c = x ↔ c = x) ∧ (toUpperTable c = x ↔ c = x)

theorem mem_normalizeTail {x : Byte} (hx : Caseless x) (b : Bytes) : x ∈ normalizeTail b ↔ x ∈ b := by
  fun_induction normalizeTail b with
  | case1 => rfl
  | case2 c => split <;> simp [@eq_comm _ x, (hx c).1]
  | case3 d b ih => simp [ih, @eq_comm _ x, (hx d).2]
  | case4 c d b hc ih => rw [List.mem_cons, ih]; simp [@eq_comm _ x, (hx c).1]

theorem mem_normalizeHeaderKeyV2 {x : Byte} (hx : Caseless x) (b : Bytes) :
    x ∈ normalizeHeaderKeyV2 b ↔ x ∈ b := by
  cases b with
  | nil => rfl
  | cons c b => simp [normalizeHeaderKeyV2, mem_normalizeTail hx, @eq_comm _ x, (hx c).2]

theorem caseless_colon : Caseless colonChar := forall_byte (by decide +kernel)
theorem caseless_lf : Caseless nChar := forall_byte (by decide +kernel)

def headNameCompare (a b : Bytes) (disableNormalize : Bool) : Bool :=
  if disableNormalize then caseInsensitiveCompare a b else a == b

/-! ## Trailers -/

def isBadTrailer (key : Bytes) (disableNormalize : Bool) : Bool :=
  let eq a b := headNameCompare a b disableNormalize
  match key with
  | [] => true
  | c :: _ =>
    let k := c ||| 32
    if k = ch 'a' then eq key strAuthorization
    else if k = ch 'c' then
      -- `Content-Type` has the length that is compared with, and is not longer than it
      if strContentType.length < key.length && eq (key.take 8) (strContentType.take 8) then
        eq (key.drop 8) (strContentEncoding.drop 8) || eq (key.drop 8) (strContentLength.drop 8) ||
          eq (key.drop 8) (strContentType.drop 8) || eq (key.drop 8) (strContentRange.drop 8)
      else eq key strConnection
    else if k = ch 'e' then eq key strExpect
    else if k = ch 'h' then eq key strHost
    else if k = ch 'k' then eq key strKeepAlive
    else if k = ch 'm' then eq key strMaxForwards
    else if k = ch 'p' then
      if strProxyConnection.length < key.length && eq (key.take 6) (strProxyConnection.take 6) then
        eq (key.drop 6) (strProxyConnection.drop 6) || eq (key.drop 6) (strProxyAuthenticate.drop 6) ||
          eq (key.drop 6) (strProxyAuthorization.drop 6)
      else false
    else if k = ch 'r' then eq key strRange
    else if k = ch 't' then eq key strTE || eq key strTrailer || eq key strTransferEncoding
    else if k = ch 'w' then eq key strWWWAuthenticate
    else false

/-- `AddTrailerBytes` of a response: a name is checked before it is normalised. -/
def addResponseTrailer (disableNormalizing : Bool) (trailer : List ArgsKV) (names : Bytes) :
    List ArgsKV × Option Err :=
  (commaList (names.length + 1) names).foldl (fun (t, err) key =>
    if isBadTrailer key disableNormalizing then (t, some .badTrailer)
    else (appendArg t (initHeaderK key disableNormalizing) [] true, err)) (trailer, none)

/-- `AddTrailerBytes` of a request: a name is normalised before it is checked. -/
def addRequestTrailer (disableNormalizing : Bool) (trailer : List ArgsKV) (names : Bytes) :
    List ArgsKV × Option Err :=
  (commaList (names.length + 1) names).foldl (fun (t, err) key =>
    let key := initHeaderK key disableNormalizing
    if isBadTrailer key disableNormalizing then (t, some (.headerParse "bad trailer key" key))
    else (appendArg t key [] true, err)) (trailer, none)

end Fasthttp
