import AdapterWs.Lib.NumberText
import AdapterWs.RequestHeaders.ClientIp

/-!
# Signed deliveries

A delivery is signed with its time: the digest is of the digits of the time, a dot and the bytes of
the body. Only digits are read as a time, so the material of a signature falls apart in one way.
-/

namespace AdapterWs.Webhooks

open JsString
open List hiding utf8Encode
open RequestHeaders (trim isSpace)

/-- `createHmac('sha256', secret).update(material).digest('hex')`. -/
structure Hmac where
  digest : JsString → List UInt8 → JsString
  length_digest : ∀ secret material, (digest secret material).length = 64
  isHex : ∀ secret material,
    (digest secret material).all (fun c => (lit "0123456789abcdef").contains c) = true

/-- A header as a framework hands it over. -/
inductive HeaderLines
  | text (value : JsString)
  | texts (values : List JsString)

/-- A body as a framework hands it over. -/
inductive RawBody
  | text (value : JsString)
  | bytes (value : List UInt8)
  | other

/-- The options of a receiver; its clock is in ms. -/
structure VerifyOptions where
  secret : Option JsString
  secrets : Option (List JsString)
  toleranceSeconds : Option ℚ
  nowMs : ℚ

/-- What a sender signs with. -/
structure SignerConfig where
  secret : JsString
  previousSecret : Option JsString

/-- The headers that are signed. -/
abbrev SignedHeaders := JsString → Option HeaderLines

variable (h : Hmac)

/-- `/^\d+$/.test(ts)`. -/
def isTimestamp (ts : JsString) : Bool :=
  decide (ts ≠ []) && ts.all fun c => decide (48 ≤ c.toNat ∧ c.toNat ≤ 57)

/-- `Number(ts)` of some digits. -/
def seconds (ts : JsString) : ℕ := Nat.ofDigitChars 10 (ts.map fun c => Char.ofNat c.toNat) 0

/-- `Buffer.from(s, 'latin1')`. -/
def latin1 (s : JsString) : List UInt8 := s.map fun c => UInt8.ofNat c.toNat

def safeEqual (a b : JsString) : Bool := decide (utf8Encode a = utf8Encode b)

def toBodyBytes : RawBody → Option (List UInt8)
  | .text value => some (utf8Encode value)
  | .bytes value => some value
  | .other => none

def readHeader (headers : SignedHeaders) (name : JsString) : Option JsString :=
  match headers name with
  | none => none
  | some (.text value) => some value
  | some (.texts values) => values.head?

/-- The entry of a signature. -/
def Hmac.entry (secret : JsString) (material : List UInt8) : JsString :=
  lit "sha256=" ++ h.digest secret material

/-- The secrets a receiver tries. -/
def VerifyOptions.configured (o : VerifyOptions) : List JsString :=
  (o.secrets.getD o.secret.toList).filter (· ≠ [])

def timestampHeader : JsString := lit "x-webhook-timestamp"

def signatureHeader : JsString := lit "x-webhook-signature"

/-- `verifyWebhookSignature(headers, rawBody, options)`. -/
def verifyWebhookSignature (headers : SignedHeaders) (rawBody : RawBody) (o : VerifyOptions) :
    Bool :=
  if o.configured = [] then false
  else
    match readHeader headers timestampHeader with
    | none => false
    | some ts =>
      let tolerance := o.toleranceSeconds.getD 300
      if 16 < ts.length ∨ isTimestamp ts = false then false
      else if tolerance < 0 then false
      else if tolerance < |o.nowMs / 1000 - seconds ts| then false
      else
        match toBodyBytes rawBody, readHeader headers signatureHeader with
        | some body, some signature =>
          if 1024 < byteLength signature then false
          else
            o.configured.any fun secret => ((split 44 signature).take 8).any fun entry =>
              safeEqual (trim entry) (h.entry secret (latin1 (ts ++ [46]) ++ body))
        | _, _ => false

/-- The headers `deliverWebhook` signs a body with at a time in seconds. -/
def signDelivery (config : SignerConfig) (now : ℕ) (body : JsString) : SignedHeaders :=
  let timestamp := decimal now
  let signed := utf8Encode (timestamp ++ [46] ++ body)
  let signature := h.entry config.secret signed ++
    match config.previousSecret with
    | none => []
    | some secret => if secret = [] then [] else 44 :: h.entry secret signed
  fun name =>
    if name = timestampHeader then some (.text timestamp)
    else if name = signatureHeader then some (.text signature)
    else none

/-- The secrets a sender signs with. -/
def SignerConfig.secrets (config : SignerConfig) : List JsString :=
  config.secret :: config.previousSecret.toList.filter (· ≠ [])

/-! ## Digits and bytes -/

variable {h}

theorem latin1_injective {s t : JsString} (hs : IsAscii s) (ht : IsAscii t)
    (heq : latin1 s = latin1 t) : s = t := by
  have hback {s : JsString} (hs : IsAscii s) :
      (latin1 s).map (fun b => UInt16.ofNat b.toNat) = s := by
    rw [latin1, map_map]
    refine (map_congr_left fun c hc => ?_).trans (map_id s)
    have hlt := hs c hc
    rw [Function.comp_apply, UInt8.toNat_ofNat', Nat.mod_eq_of_lt (by omega)]
    exact UInt16.ofNat_toNat
  rw [← hback hs, heq, hback ht]

theorem utf8Encode_ascii_append {s : JsString} (hs : IsAscii s) (t : JsString) :
    utf8Encode (s ++ t) = latin1 s ++ utf8Encode t := by
  induction s with
  | nil => rfl
  | cons c s ih =>
    have hlt : c.toNat < 128 := hs c (.head _)
    have hhigh := isHigh_of_ascii hlt
    have hunit : encodePoint c.toNat = [UInt8.ofNat c.toNat] := if_pos hlt
    have ih : (codePoints (s ++ t)).flatMap encodePoint = latin1 s ++ utf8Encode t :=
      ih fun d hd => hs d (.tail _ hd)
    rw [utf8Encode, cons_append, codePoints_cons fun hc => absurd (hhigh.symm.trans hc) (by decide),
      flatMap_cons, ih, hhigh, isLow_of_ascii hlt]
    exact congrArg (· ++ (latin1 s ++ utf8Encode t)) hunit

theorem mem_isTimestamp {ts : JsString} (hts : isTimestamp ts = true) :
    ∀ c ∈ ts, 48 ≤ c.toNat ∧ c.toNat ≤ 57 := by
  rw [isTimestamp, Bool.and_eq_true, all_eq_true] at hts
  exact fun c hc => of_decide_eq_true (hts.2 c hc)

theorem isAscii_of_isTimestamp {ts : JsString} (hts : isTimestamp ts = true) : IsAscii ts := by
  intro c hc
  have := mem_isTimestamp hts c hc
  omega

/-- The material of a signature falls apart in one way. -/
theorem material_injective {ts ts' : JsString} {body body' : List UInt8}
    (hts : isTimestamp ts = true) (hts' : isTimestamp ts' = true)
    (heq : latin1 (ts ++ [46]) ++ body = latin1 (ts' ++ [46]) ++ body') :
    ts = ts' ∧ body = body' := by
  have hdot {ts : JsString} (hts : isTimestamp ts = true) : (46 : UInt8) ∉ latin1 ts := by
    intro hmem
    obtain ⟨c, hc, hbyte⟩ := mem_map.mp hmem
    have hdigit := mem_isTimestamp hts c hc
    have hbyte := congrArg UInt8.toNat hbyte
    rw [UInt8.toNat_ofNat', Nat.mod_eq_of_lt (by omega)] at hbyte
    have hvalue : (46 : UInt8).toNat = 46 := rfl
    omega
  have hfirst {ts : JsString} (hts : isTimestamp ts = true) (body : List UInt8) :
      (split 46 (latin1 (ts ++ [46]) ++ body)).head? = some (latin1 ts) := by
    rw [latin1, map_append, append_assoc]
    change (split 46 (latin1 ts ++ 46 :: body)).head? = _
    rw [split_append_cons, split_of_not_mem (hdot hts)]
    rfl
  have htime := hfirst hts body
  rw [heq, hfirst hts' body'] at htime
  obtain rfl := latin1_injective (isAscii_of_isTimestamp hts') (isAscii_of_isTimestamp hts)
    (Option.some.inj htime)
  exact ⟨rfl, append_cancel_left heq⟩

theorem isTimestamp_decimal (n : ℕ) : isTimestamp (decimal n) = true := by
  have hne : decimal n ≠ [] := mt map_eq_nil_iff.mp Nat.toDigits_ne_nil
  rw [isTimestamp, decide_eq_true hne, Bool.true_and, all_eq_true]
  intro u hu
  obtain ⟨c, hc, rfl⟩ := mem_map.mp hu
  have hdigit := Nat.isDigit_of_mem_toDigits (by decide) (by decide) hc
  simp only [Char.isDigit, Bool.and_eq_true, decide_eq_true_eq] at hdigit
  have hlo : 48 ≤ c.toNat := hdigit.1
  have hle : c.toNat ≤ 57 := hdigit.2
  rw [unit, UInt16.toNat_ofNat', Nat.mod_eq_of_lt (by omega)]
  exact decide_eq_true ⟨hlo, hle⟩

/-! ## Entries -/

variable {secret secret' : JsString} {material material' : List UInt8}

theorem mem_entry : ∀ c ∈ h.entry secret material, c ∈ lit "sha256=0123456789abcdef" := by
  intro c hc
  have hsplit : lit "sha256=0123456789abcdef" = lit "sha256=" ++ lit "0123456789abcdef" := rfl
  rw [hsplit]
  refine mem_append.mpr ((mem_append.mp hc).imp_right fun hc => ?_)
  exact contains_iff_mem.mp (all_eq_true.mp (h.isHex secret material) c hc)

theorem isAscii_entry : IsAscii (h.entry secret material) := by
  have hall : IsAscii (lit "sha256=0123456789abcdef") := by decide
  exact fun c hc => hall c (mem_entry c hc)

theorem comma_notMem_entry : 44 ∉ h.entry secret material := by
  intro hmem
  exact absurd (mem_entry 44 hmem) (by decide)

theorem trim_entry : trim (h.entry secret material) = h.entry secret material := by
  have hall : ∀ c ∈ h.entry secret material, isSpace c = false := by
    intro c hc
    have hunits : (lit "sha256=0123456789abcdef").all (fun c => !isSpace c) = true := by decide
    exact Bool.not_eq_true' _ ▸ all_eq_true.mp hunits c (mem_entry c hc)
  have hdrop : (h.entry secret material).dropWhile isSpace = h.entry secret material := by
    rw [dropWhile_eq_self_iff]
    exact fun hpos => by rw [hall _ (getElem_mem hpos)]; exact Bool.false_ne_true
  rw [trim, hdrop, rdropWhile_eq_self_iff]
  exact fun hne => by rw [hall _ (getLast_mem hne)]; exact Bool.false_ne_true

theorem safeEqual_entry_iff :
    safeEqual (h.entry secret material) (h.entry secret' material') = true ↔
      h.digest secret material = h.digest secret' material' := by
  rw [safeEqual, decide_eq_true_iff]
  constructor
  · intro heq
    have hbytes (secret : JsString) (material : List UInt8) :
        utf8Encode (h.entry secret material) = latin1 (h.entry secret material) := by
      have hascii : IsAscii (h.entry secret material) := isAscii_entry
      have := utf8Encode_ascii_append hascii []
      rwa [append_nil, show utf8Encode [] = [] from rfl, append_nil] at this
    rw [hbytes, hbytes] at heq
    exact append_cancel_left (latin1_injective isAscii_entry isAscii_entry heq)
  · intro heq
    rw [Hmac.entry, heq, Hmac.entry]

theorem byteLength_entry : byteLength (h.entry secret material) = 71 := by
  rw [byteLength_of_ascii isAscii_entry, Hmac.entry, length_append, h.length_digest]
  rfl

variable {config : SignerConfig} {o : VerifyOptions} {now : ℕ} {body : JsString}

/-- The entries of a signature, and its size. -/
theorem exists_signature (h : Hmac) (config : SignerConfig) (now : ℕ) (body : JsString) :
    ∃ signature,
    readHeader (signDelivery h config now body) signatureHeader = some signature ∧
      byteLength signature ≤ 1024 ∧ (split 44 signature).take 8 = config.secrets.map fun secret =>
        h.entry secret (latin1 (decimal now ++ [46]) ++ utf8Encode body) := by
  have hmaterial : utf8Encode (decimal now ++ [46] ++ body) =
      latin1 (decimal now ++ [46]) ++ utf8Encode body :=
    utf8Encode_ascii_append ((Binary64.isAscii_decimal now).append (by decide)) body
  refine ⟨_, rfl, ?_⟩
  rw [hmaterial]
  have hone : split 44 (h.entry config.secret (latin1 (decimal now ++ [46]) ++ utf8Encode body)) =
      [_] := split_of_not_mem comma_notMem_entry
  rw [SignerConfig.secrets]
  cases config.previousSecret with
  | none =>
    rw [append_nil, byteLength_entry, hone]
    exact ⟨by decide, rfl⟩
  | some secret =>
    by_cases hempty : secret = []
    · simp only [if_pos hempty, append_nil]
      rw [byteLength_entry, hone, hempty]
      exact ⟨by decide, rfl⟩
    · simp only [if_neg hempty]
      rw [byteLength_ascii_append isAscii_entry, byteLength_ascii_cons (by decide),
        ← byteLength_of_ascii isAscii_entry, byteLength_entry, byteLength_entry, split_append_cons,
        hone, split_of_not_mem comma_notMem_entry]
      have hkept : (some secret).toList.filter (fun s => decide (s ≠ [])) = [secret] := by
        simp [hempty]
      rw [hkept]
      exact ⟨by decide, rfl⟩

theorem seconds_decimal (n : ℕ) : seconds (decimal n) = n := by
  rw [seconds, map_decimal]
  simp

/-- A delivery verifies at a receiver that has one of the secrets it was signed with, gets the body
as it was sent and has a clock within its tolerance. -/
theorem verifies_delivery {rawBody : RawBody} (hbody : toBodyBytes rawBody = some (utf8Encode body))
    (hnow : now < 10 ^ 16) (hfresh : |o.nowMs / 1000 - now| ≤ o.toleranceSeconds.getD 300)
    (hsecret : ∃ secret ∈ config.secrets, secret ∈ o.configured) :
    verifyWebhookSignature h (signDelivery h config now body) rawBody o = true := by
  obtain ⟨signature, hsignature, hsize, hentries⟩ := exists_signature h config now body
  have htime : readHeader (signDelivery h config now body) timestampHeader =
      some (decimal now) := rfl
  have hlength : (decimal now).length ≤ 16 := by
    rw [decimal, length_map]
    exact (Nat.length_toDigits_le_iff (by decide) (by decide)).mpr hnow
  obtain ⟨secret, hmem, hconfigured⟩ := hsecret
  have htolerance := (abs_nonneg _).trans hfresh
  rw [verifyWebhookSignature, if_neg (ne_nil_of_mem hconfigured), htime, hbody, hsignature]
  simp only [isTimestamp_decimal, seconds_decimal, hentries, if_neg (not_lt.mpr htolerance),
    if_neg (not_lt.mpr hfresh), if_neg (not_lt.mpr hsize), not_lt.mpr hlength]
  rw [if_neg (by simp), any_eq_true]
  refine ⟨secret, hconfigured, any_eq_true.mpr ⟨_, mem_map.mpr ⟨secret, hmem, rfl⟩, ?_⟩⟩
  rw [trim_entry, safeEqual_entry_iff]

/-- The body `{}`, sent at one time under one secret. -/
def sentMaterial : List UInt8 := latin1 (lit "1700000000.\x7b\x7d")

/-- The digest of one delivery, and a text of no use for all others. -/
def oneDigest : Hmac where
  digest secret material :=
    if secret = [107] ∧ material = sentMaterial then
      lit "c6ef4734033cee2367414a0939385eca0397754aa7a59716da7463a9298b5146"
    else replicate 64 48
  length_digest secret material := by split_ifs <;> rfl
  isHex secret material := by split_ifs <;> decide

theorem verifies_delivery_inTime : verifyWebhookSignature oneDigest
    (signDelivery oneDigest ⟨[107], none⟩ 1700000000 (lit "\x7b\x7d")) (.text (lit "\x7b\x7d"))
    ⟨some [107], none, none, 1700000299500⟩ = true :=
  verifies_delivery rfl (by decide) (by norm_num) ⟨[107], .head _, by decide⟩

/-- A signature that was captured verifies with no other time and no other body, and only while its
time is within the tolerance, if no other material has its digests. -/
theorem verifies_only_delivered {headers : SignedHeaders} {rawBody : RawBody}
    (hverifies : verifyWebhookSignature h headers rawBody o = true)
    (hcaptured : readHeader headers signatureHeader =
      readHeader (signDelivery h config now body) signatureHeader)
    (hfree : ∀ secret ∈ o.configured, ∀ secret' ∈ config.secrets, ∀ material,
      h.digest secret material =
          h.digest secret' (latin1 (decimal now ++ [46]) ++ utf8Encode body) →
        material = latin1 (decimal now ++ [46]) ++ utf8Encode body) :
    readHeader headers timestampHeader = some (decimal now) ∧
      toBodyBytes rawBody = some (utf8Encode body) ∧
      |o.nowMs / 1000 - now| ≤ o.toleranceSeconds.getD 300 := by
  obtain ⟨signature, hsignature, -, hentries⟩ := exists_signature h config now body
  rw [verifyWebhookSignature, hcaptured, hsignature] at hverifies
  split_ifs at hverifies with hnone
  cases htime : readHeader headers timestampHeader with
  | none => simp [htime] at hverifies
  | some ts =>
    cases hbody : toBodyBytes rawBody with
    | none => simp [htime, hbody] at hverifies
    | some bytes =>
      rw [htime, hbody] at hverifies
      simp only [hentries] at hverifies
      split_ifs at hverifies with hdigits hnegative hlate hlong
      obtain ⟨secret, hsecret, hany⟩ := any_eq_true.mp hverifies
      obtain ⟨entry, hentry, hequal⟩ := any_eq_true.mp hany
      obtain ⟨secret', hsecret', rfl⟩ := mem_map.mp hentry
      rw [trim_entry, safeEqual_entry_iff] at hequal
      rw [not_or, Bool.not_eq_false] at hdigits
      obtain ⟨rfl, rfl⟩ := material_injective hdigits.2 (isTimestamp_decimal now)
        (hfree secret hsecret secret' hsecret' _ hequal.symm)
      rw [seconds_decimal, not_lt] at hlate
      exact ⟨rfl, rfl, hlate⟩

theorem verifies_only_delivered_inTime :
    |(1700000299500 : ℚ) / 1000 - (1700000000 : ℕ)| ≤ 300 := by
  have hverifies : verifyWebhookSignature oneDigest
      (signDelivery oneDigest ⟨[107], none⟩ 1700000000 (lit "\x7b\x7d")) (.text (lit "\x7b\x7d"))
      ⟨some [107], none, none, 1700000299500⟩ = true := by decide +kernel
  refine (verifies_only_delivered hverifies rfl ?_).2.2
  intro secret hsecret secret' hsecret' material hdigest
  cases mem_singleton.mp hsecret
  cases mem_singleton.mp hsecret'
  have hsent : latin1 (decimal 1700000000 ++ [46]) ++ utf8Encode (lit "\x7b\x7d") =
      sentMaterial := by decide +kernel
  rw [hsent] at hdigest ⊢
  by_contra hne
  have hother : oneDigest.digest [107] material = replicate 64 48 := if_neg fun h => hne h.2
  have hdigests : oneDigest.digest [107] sentMaterial ≠ replicate 64 48 := by decide +kernel
  exact hdigests (hdigest.symm.trans hother)

end AdapterWs.Webhooks
