import AdapterWs.RateLimit.Tenancy

/-!
# Isolation of tenants

What a tenant does changes no result of anybody else, as long as no key of theirs looks like one of
the tenant, and a connection that is given a key gets one of its own.
-/

namespace AdapterWs.RateLimit

open JsString List Option TenantLimiter

/-! ## The keys of tenants -/

theorem unit_ne_zero {c : Char} (h : c.isDigit = true) : unit c ≠ 0 := by
  intro hzero
  have hval := congrArg UInt16.toNat hzero
  rw [unit, UInt16.toNat_ofNat'] at hval
  simp only [Char.isDigit, Bool.and_eq_true, decide_eq_true_eq] at h
  have hle : 48 ≤ c.toNat := h.1
  have hge : c.toNat ≤ 57 := h.2
  rw [show (0 : UInt16).toNat = 0 from rfl] at hval
  omega

theorem zero_not_mem_connKey (n : ℕ) : (0 : UInt16) ∉ connKey n := by
  rw [connKey, mem_append, not_or]
  refine ⟨by decide +kernel, fun hmem => ?_⟩
  obtain ⟨c, hc, heq⟩ := mem_map.mp hmem
  have hdigit : c.isDigit = true := by
    refine Nat.isDigit_of_mem_toDigits (b := 10) (n := n) (by omega) (by omega) ?_
    simpa [toString, Nat.repr] using hc
  exact unit_ne_zero hdigit heq

variable {u : JsString}

theorem eq_of_isPrefix {v k : JsString} (hu : 0 ∉ u) (hor : 0 ∉ v ∨ 0 ∉ k)
    (h : v ++ [0] <+: u ++ 0 :: k) : v = u := by
  induction v generalizing u with
  | nil =>
    cases u with
    | nil => rfl
    | cons c u =>
      have hc := (cons_prefix_cons.mp h).1
      exact absurd (hc ▸ (.head _)) hu
  | cons d v ih =>
    cases u with
    | nil =>
      obtain ⟨rfl, hrest⟩ := cons_prefix_cons.mp h
      rcases hor with hv | hk
      · exact absurd (.head _) hv
      · exact absurd (hrest.subset (mem_concat_self)) hk
    | cons c u =>
      obtain ⟨rfl, hrest⟩ := cons_prefix_cons.mp h
      have hor' : 0 ∉ v ∨ 0 ∉ k := hor.imp_left fun hv hmem => hv (.tail _ hmem)
      rw [ih (fun hmem => hu (.tail _ hmem)) hor' hrest]

variable {o : TenancyOptions} {tenant raw raw' key key' : JsString} {id id' : Option JsString}
  {e : TenancyError}

theorem scopeOf_eq_some (h : scopeOf id = some u) : id = some u ∧ u ≠ [] := by
  obtain ⟨hid, hne⟩ := filter_eq_some_iff.mp h
  exact ⟨hid, by simpa using hne⟩

@[simp] theorem scopeOf_scopeOf (id : Option JsString) : scopeOf (scopeOf id) = scopeOf id := by
  cases h : scopeOf id with
  | none => rfl
  | some u =>
    obtain ⟨rfl, -⟩ := scopeOf_eq_some h
    exact h

theorem bucketKey_scopeOf (raw : JsString) (id : Option JsString) :
    bucketKey o.toRateLimitOptions raw (scopeOf id) = bucketKey o.toRateLimitOptions raw id := by
  rw [bucketKey, bucketKey, scopeOf_scopeOf]

/-- Whether there is a key does not depend on the raw one. -/
theorem bucketKey_error (h : bucketKey o.toRateLimitOptions raw id = .error e) (raw' : JsString) :
    bucketKey o.toRateLimitOptions raw' id = .error e := by
  rw [bucketKey] at h ⊢
  cases hscope : scopeOf id with
  | none =>
    rw [hscope] at h
    simp only at h ⊢
    split_ifs at h ⊢
    exact h
  | some u =>
    rw [hscope] at h
    simp only at h ⊢
    split_ifs at h ⊢
    exact h

theorem bucketKey_ok (h : bucketKey o.toRateLimitOptions raw id = .ok key) :
    scopeOf id = none ∧ o.budgetTenant = false ∧ key = raw ∨
      ∃ u, scopeOf id = some u ∧ 0 ∉ u ∧
        key = if o.budgetTenant then u else u ++ 0 :: raw := by
  rw [bucketKey] at h
  cases hscope : scopeOf id with
  | none =>
    rw [hscope] at h
    simp only at h
    split_ifs at h with hbudget
    exact .inl ⟨rfl, by simpa using hbudget, (Except.ok.inj h).symm⟩
  | some u =>
    rw [hscope] at h
    simp only at h
    by_cases hnul : u.contains 0 = true
    · rw [if_pos hnul] at h
      cases h
    · rw [if_neg hnul] at h
      exact .inr ⟨u, rfl, by simpa using hnul, (Except.ok.inj h).symm⟩

theorem isCleared_iff (hne : tenant ≠ []) : RateLimiter.isCleared o.toRateLimitOptions tenant key =
    true ↔ o.budgetTenant = true ∧ key = tenant ∨ tenant ++ [0] <+: key := by
  rw [RateLimiter.isCleared, Bool.or_eq_true, Bool.or_eq_true, Bool.and_eq_true,
    decide_eq_true_eq, List.isPrefixOf_iff_prefix, List.isEmpty_iff]
  simp [hne]

theorem isCleared_of_tenant (hne : tenant ≠ [])
    (h : bucketKey o.toRateLimitOptions raw (some tenant) = .ok key) :
    RateLimiter.isCleared o.toRateLimitOptions tenant key = true := by
  rw [isCleared_iff hne]
  have hscope : scopeOf (some tenant) = some tenant := by simp [scopeOf, hne]
  rcases bucketKey_ok h with ⟨hnone, -⟩ | ⟨u, hu, -, hkey⟩
  · rw [hscope] at hnone
    cases hnone
  · cases hscope.symm.trans hu
    cases hbudget : o.budgetTenant with
    | true =>
      rw [hbudget, if_pos rfl] at hkey
      exact .inl ⟨rfl, hkey⟩
    | false =>
      rw [hbudget, if_neg Bool.false_ne_true] at hkey
      exact .inr ⟨raw, by rw [hkey, append_assoc]; rfl⟩

theorem not_isCleared_of_scope (hne : tenant ≠ []) (hnul : 0 ∉ tenant)
    (hscope : scopeOf id = some u) (hother : u ≠ tenant)
    (h : bucketKey o.toRateLimitOptions raw id = .ok key) :
    RateLimiter.isCleared o.toRateLimitOptions tenant key = false := by
  rw [Bool.eq_false_iff, Ne, isCleared_iff hne]
  rcases bucketKey_ok h with ⟨hnone, -⟩ | ⟨v, hv, hzero, hkey⟩
  · rw [hscope] at hnone
    cases hnone
  · cases hscope.symm.trans hv
    cases hbudget : o.budgetTenant with
    | true =>
      rw [hbudget, if_pos rfl] at hkey
      rintro (⟨-, heq⟩ | hhead)
      · exact hother (hkey.symm.trans heq)
      · exact hzero (hkey ▸ hhead.subset (mem_concat_self))
    | false =>
      rw [hbudget, if_neg Bool.false_ne_true] at hkey
      rintro (⟨hfalse, -⟩ | hhead)
      · cases hfalse
      · exact hother (eq_of_isPrefix hzero (.inl hnul) (hkey ▸ hhead)).symm

/-- What a tenant's `clear` drops of the keys of connections. -/
theorem isCleared_connKey {n : ℕ} (hbudget : o.budgetTenant = false) (hid : scopeOf id = id)
    (h : bucketKey o.toRateLimitOptions (connKey n) id = .ok key) :
    RateLimiter.isCleared o.toRateLimitOptions tenant key =
      (tenant.isEmpty || decide (id = some tenant)) := by
  have hzero := zero_not_mem_connKey n
  by_cases hne : tenant = []
  · simp [RateLimiter.isCleared, hne]
  rw [Bool.eq_iff_iff, isCleared_iff hne, Bool.or_eq_true, decide_eq_true_eq, List.isEmpty_iff]
  simp only [hne, false_or, hbudget, Bool.false_eq_true, false_and]
  rcases bucketKey_ok h with ⟨hnone, -, rfl⟩ | ⟨u, hu, hnul, hkey⟩
  · rw [hid] at hnone
    rw [hnone]
    refine iff_of_false (fun hhead => ?_) (some_ne_none _).symm
    exact hzero (hhead.subset (mem_concat_self))
  · rw [hbudget, if_neg Bool.false_ne_true] at hkey
    rw [← hid, hu, hkey, some.injEq]
    refine ⟨fun hhead => (eq_of_isPrefix hnul (.inr hzero) hhead).symm, ?_⟩
    rintro rfl
    exact ⟨connKey n, by rw [append_assoc]; rfl⟩

/-- The key of a bucket tells the raw key and the tenant. -/
theorem bucketKey_injective (hbudget : o.budgetTenant = false) (hid : scopeOf id = id)
    (hid' : scopeOf id' = id') (hraw : 0 ∉ raw) (hraw' : 0 ∉ raw')
    (h : bucketKey o.toRateLimitOptions raw id = .ok key)
    (h' : bucketKey o.toRateLimitOptions raw' id' = .ok key) : raw = raw' ∧ id = id' := by
  have hscoped : ∀ {u raw raw' : JsString}, 0 ∉ raw' → u ++ 0 :: raw ≠ raw' := by
    rintro u raw raw' hzero rfl
    exact hzero (mem_append_right _ (.head _))
  rcases bucketKey_ok h with ⟨hu, -, hkey⟩ | ⟨u, hu, hnul, hkey⟩ <;>
    rcases bucketKey_ok h' with ⟨hv, -, hkey'⟩ | ⟨v, hv, hnul', hkey'⟩
  · exact ⟨hkey.symm.trans hkey', hid.symm.trans ((hu.trans hv.symm).trans hid')⟩
  · rw [hbudget, if_neg Bool.false_ne_true] at hkey'
    exact absurd (hkey'.symm.trans hkey) (hscoped hraw)
  · rw [hbudget, if_neg Bool.false_ne_true] at hkey
    exact absurd (hkey.symm.trans hkey') (hscoped hraw')
  · rw [hbudget, if_neg Bool.false_ne_true] at hkey hkey'
    have heq : u ++ 0 :: raw = v ++ 0 :: raw' := hkey.symm.trans hkey'
    have hhead : u ++ [0] <+: v ++ 0 :: raw' := ⟨raw, by rw [← heq, append_assoc]; rfl⟩
    obtain rfl := eq_of_isPrefix hnul' (.inl hnul) hhead
    have hrest := append_cancel_left heq
    exact ⟨(cons.inj hrest).2, hid.symm.trans ((hu.trans hv.symm).trans hid')⟩

/-! ## What a bucket is for -/

/-- A key, or a connection and the tenant it is counted for where connections have keys. -/
inductive Slot (W : Type)
  | key (key : JsString)
  | conn (ws : W) (tenantId : Option JsString)

/-- Whether connections are given keys. -/
def TenancyOptions.perConnection (o : TenancyOptions) : Bool :=
  !o.budgetTenant && decide (o.keyBy = .connection)

/-- The slots that are not the tenant's. -/
def Slot.Visible {W : Type} (o : TenancyOptions) (attribution : W → Option JsString)
    (tenant : JsString) : Slot W → Prop
  | .key key => o.perConnection = false ∧
      RateLimiter.isCleared o.toRateLimitOptions tenant key = false
  | .conn ws id => o.perConnection = true ∧ scopeOf id = id ∧ id ≠ some tenant ∧
      (o.tenant = false → id = scopeOf (attribution ws))

variable {W : Type} [DecidableEq W]

/-- The key of a slot, if it has one yet. -/
def TenantLimiter.address (o : TenancyOptions) (s : TenantLimiter W) : Slot W → Option JsString
  | .key key => some key
  | .conn ws id => (s.wsKeys ws).bind fun key =>
    if o.tenant then (bucketKey o.toRateLimitOptions key id).toOption else some key

/-- The bucket of a slot. -/
def TenantLimiter.bucketOf (o : TenancyOptions) (s : TenantLimiter W) (slot : Slot W) :
    Option Bucket := (s.address o slot).bind s.limiter.buckets.get

/-- The keys that connections hold in one run. -/
structure Held (o : TenancyOptions) (attribution : W → Option JsString) (tenant : JsString)
    (s : TenantLimiter W) : Prop where
  form : ∀ ws key, s.wsKeys ws = some key → ∃ n, if o.tenant then key = connKey n else
    bucketKey o.toRateLimitOptions (connKey n) (attribution ws) = .ok key
  distinct : ∀ ws ws' key, RateLimiter.isCleared o.toRateLimitOptions tenant key = false →
    s.wsKeys ws = some key → s.wsKeys ws' = some key → ws = ws'

variable {attribution : W → Option JsString} {s s' : TenantLimiter W} {slot slot' : Slot W}
  {ws : W} {cost t : ℚ}

theorem not_budgetTenant (h : o.perConnection = true) : o.budgetTenant = false := by
  simp only [TenancyOptions.perConnection, Bool.and_eq_true, Bool.not_eq_true'] at h
  exact h.1

omit [DecidableEq W] in
theorem Held.exists_connKey (h : Held o attribution tenant s)
    (hvisible : (Slot.conn ws id).Visible o attribution tenant)
    (haddress : s.address o (.conn ws id) = some key) :
    ∃ n, bucketKey o.toRateLimitOptions (connKey n) id = .ok key := by
  obtain ⟨-, -, -, hattribution⟩ := hvisible
  obtain ⟨held, hheld, hkey⟩ := bind_eq_some_iff.mp haddress
  obtain ⟨n, hform⟩ := h.form ws held hheld
  refine ⟨n, ?_⟩
  cases htenant : o.tenant with
  | true =>
    rw [htenant, if_pos rfl] at hform hkey
    subst hform
    cases hok : bucketKey o.toRateLimitOptions (connKey n) id with
    | error e =>
      rw [hok] at hkey
      cases hkey
    | ok key' =>
      rw [hok] at hkey
      exact congrArg _ (some.inj hkey)
  | false =>
    rw [htenant, if_neg Bool.false_ne_true] at hform hkey
    cases hkey
    rw [hattribution htenant, bucketKey_scopeOf]
    exact hform

/-- Whether a `clear` drops the bucket of a slot. -/
def Slot.isCleared (o : TenancyOptions) (tenant : JsString) : Slot W → Bool
  | .key key => RateLimiter.isCleared o.toRateLimitOptions tenant key
  | .conn _ id => tenant.isEmpty || decide (id = some tenant)

section

omit [DecidableEq W]

theorem Held.isCleared_address (h : Held o attribution tenant s)
    (hvisible : slot.Visible o attribution tenant) (haddress : s.address o slot = some key)
    (other : JsString) :
    RateLimiter.isCleared o.toRateLimitOptions other key = slot.isCleared o other := by
  cases slot with
  | key k =>
    cases haddress
    rfl
  | conn ws id =>
    obtain ⟨n, hn⟩ := h.exists_connKey hvisible haddress
    exact isCleared_connKey (not_budgetTenant hvisible.1) hvisible.2.1 hn

theorem Slot.Visible.not_isCleared (h : slot.Visible o attribution tenant) (hne : tenant ≠ []) :
    slot.isCleared o tenant = false := by
  cases slot with
  | key k => exact h.2
  | conn ws id => simp [Slot.isCleared, hne, h.2.2.1]

/-- The key of a slot that is not the tenant's is not the tenant's. -/
theorem Held.not_isCleared (h : Held o attribution tenant s) (hne : tenant ≠ [])
    (hvisible : slot.Visible o attribution tenant) (haddress : s.address o slot = some key) :
    RateLimiter.isCleared o.toRateLimitOptions tenant key = false :=
  (h.isCleared_address hvisible haddress tenant).trans (hvisible.not_isCleared hne)

theorem Held.eq_of_address (h : Held o attribution tenant s) (hne : tenant ≠ [])
    (hvisible : slot.Visible o attribution tenant)
    (hvisible' : slot'.Visible o attribution tenant) (haddress : s.address o slot = some key)
    (haddress' : s.address o slot' = some key) : slot = slot' := by
  have hcleared := h.not_isCleared hne hvisible haddress
  match slot, slot' with
  | .key k, .key k' =>
    cases haddress
    exact congrArg _ (some.inj haddress').symm
  | .key k, .conn ws id =>
    cases hvisible.1.symm.trans hvisible'.1
  | .conn ws id, .key k =>
    cases hvisible'.1.symm.trans hvisible.1
  | .conn ws id, .conn ws' id' =>
    obtain ⟨n, hn⟩ := h.exists_connKey hvisible haddress
    obtain ⟨m, hm⟩ := h.exists_connKey hvisible' haddress'
    have hbudget := not_budgetTenant hvisible.1
    obtain ⟨heq, rfl⟩ := bucketKey_injective hbudget hvisible.2.1 hvisible'.2.1
      (zero_not_mem_connKey n) (zero_not_mem_connKey m) hn hm
    obtain ⟨held, hheld, hkey⟩ := bind_eq_some_iff.mp haddress
    obtain ⟨held', hheld', hkey'⟩ := bind_eq_some_iff.mp haddress'
    cases htenant : o.tenant with
    | false =>
      rw [htenant, if_neg Bool.false_ne_true, some.injEq] at hkey hkey'
      subst hkey hkey'
      rw [h.distinct ws ws' _ hcleared hheld hheld']
    | true =>
      obtain ⟨i, hi⟩ := h.form ws held hheld
      obtain ⟨j, hj⟩ := h.form ws' held' hheld'
      rw [htenant, if_pos rfl] at hi hj hkey hkey'
      have hok : ∀ {r : Except TenancyError JsString} {k}, r.toOption = some k → r = .ok k := by
        intro r k hr
        cases r with
        | error e => cases hr
        | ok k' => exact congrArg _ (some.inj hr)
      obtain ⟨hsame, -⟩ := bucketKey_injective hbudget hvisible.2.1 hvisible.2.1
        (hi ▸ zero_not_mem_connKey i) (hj ▸ zero_not_mem_connKey j) (hok hkey) (hok hkey')
      subst hsame
      have hfree : RateLimiter.isCleared o.toRateLimitOptions tenant held = false := by
        rw [Bool.eq_false_iff, Ne, isCleared_iff hne, hbudget]
        rintro (⟨hfalse, -⟩ | hhead)
        · cases hfalse
        · refine zero_not_mem_connKey i (hi ▸ hhead.subset ?_)
          exact mem_concat_self
      rw [h.distinct ws ws' held hfree hheld hheld']

end

/-! ## The key of a call -/

/-- What finding the key of a call does. -/
structure Derived (o : TenancyOptions) (attribution : W → Option JsString) (s : TenantLimiter W)
    (ws : W) (raw : JsString) (id : Option JsString) (r : Except TenancyError JsString)
    (s' : TenantLimiter W) : Prop where
  limiter : s'.limiter = s.limiter
  wsKeys : s'.wsKeys = s.wsKeys ∨ s.wsKeys ws = none ∧
    ∃ key n, s'.wsKeys = Function.update s.wsKeys ws (some key) ∧
      if o.tenant then key = connKey n else
        bucketKey o.toRateLimitOptions (connKey n) (attribution ws) = .ok key
  form : ∃ raw', r = bucketKey o.toRateLimitOptions raw' id
  plain : o.perConnection = false →
    r = bucketKey o.toRateLimitOptions (if o.budgetTenant then [] else raw) id
  held : o.perConnection = true → ∀ key, r = .ok key →
    s'.address o (.conn ws (scopeOf id)) = some key

theorem derived_plain (attribution : W → Option JsString) (s : TenantLimiter W) (ws : W)
    (raw : JsString) (id : Option JsString) (hconn : o.perConnection = false) :
    Derived o attribution s ws raw id
      (bucketKey o.toRateLimitOptions (if o.budgetTenant then [] else raw) id) s :=
  ⟨rfl, .inl rfl, ⟨_, rfl⟩, fun _ => rfl,
    fun h => absurd (hconn.symm.trans h) Bool.false_ne_true⟩

omit [DecidableEq W] in
theorem address_of_held (htenant : o.tenant = true) (hheld : s.wsKeys ws = some raw)
    (hok : bucketKey o.toRateLimitOptions raw id = .ok key) :
    s.address o (.conn ws (scopeOf id)) = some key := by
  rw [address, hheld, bind_some, htenant, if_pos rfl, bucketKey_scopeOf, hok]
  rfl

/-- The key of a call, which belongs to a connection or is what the call gives. -/
theorem derived_consumeKey (ws : W) (raw : JsString) (id : Option JsString)
    (h : Held o attribution tenant s) (hid : o.tenant = false → id = attribution ws) :
    Derived o attribution s ws raw id (s.consumeKey o ws raw id).1
      (s.consumeKey o ws raw id).2 := by
  rw [consumeKey]
  cases hbudget : o.budgetTenant with
  | true =>
    have hconn : o.perConnection = false := by simp [TenancyOptions.perConnection, hbudget]
    have hplain := derived_plain attribution s ws raw id hconn
    rwa [hbudget, if_pos rfl] at hplain
  | false =>
    rw [if_neg Bool.false_ne_true, principalBucketKey]
    by_cases hkeyBy : o.keyBy = .connection
    · have hconn : o.perConnection = true := by
        simp [TenancyOptions.perConnection, hbudget, hkeyBy]
      have hnot : o.perConnection ≠ false := by simp [hconn]
      cases htenant : o.tenant with
      | true =>
        rw [if_pos rfl, resolveRawKey, hkeyBy]
        cases hheld : s.wsKeys ws with
        | some held =>
          exact ⟨rfl, .inl rfl, ⟨_, rfl⟩, fun h => absurd h hnot,
            fun _ key hok => address_of_held htenant hheld hok⟩
        | none =>
          refine ⟨rfl, .inr ⟨hheld, _, s.connCounter + 1, rfl, ?_⟩, ⟨_, rfl⟩,
            fun h => absurd h hnot,
            fun _ key hok => address_of_held htenant (Function.update_self ..) hok⟩
          rw [htenant, if_pos rfl]
      | false =>
        rw [if_neg Bool.false_ne_true, hkeyBy, connectionKey]
        cases hheld : s.wsKeys ws with
        | some held =>
          obtain ⟨n, hn⟩ := h.form ws held hheld
          rw [htenant, if_neg Bool.false_ne_true, ← hid htenant] at hn
          refine ⟨rfl, .inl rfl, ⟨_, hn.symm⟩, fun h => absurd h hnot, fun _ key hok => ?_⟩
          cases hok
          simp [address, hheld, htenant]
        | none =>
          cases hkey : bucketKey o.toRateLimitOptions (connKey (s.connCounter + 1)) id with
          | error e =>
            simp only [hkey]
            exact ⟨rfl, .inl rfl, ⟨_, hkey.symm⟩, fun h => absurd h hnot, nofun⟩
          | ok key =>
            simp only [hkey]
            refine ⟨rfl, .inr ⟨hheld, key, s.connCounter + 1, rfl, ?_⟩, ⟨_, hkey.symm⟩,
              fun h => absurd h hnot, fun _ key' hok => ?_⟩
            · rw [htenant, if_neg Bool.false_ne_true, ← hid htenant]
              exact hkey
            · cases hok
              simp [address, htenant]
    · have hconn : o.perConnection = false := by simp [TenancyOptions.perConnection, hkeyBy]
      have hplain := derived_plain attribution s ws raw id hconn
      rw [hbudget, if_neg Bool.false_ne_true] at hplain
      cases hkind : o.keyBy with
      | connection => exact absurd hkind hkeyBy
      | ip => cases o.tenant <;> simpa [resolveRawKey, hkind] using hplain
      | custom => cases o.tenant <;> simpa [resolveRawKey, hkind] using hplain

/-- The keys that a call gives to connections are held by no other, and nobody but the tenant has a
bucket under them. -/
def GivesFresh (o : TenancyOptions) (attribution : W → Option JsString) (tenant : JsString)
    (s s' : TenantLimiter W) : Prop :=
  ∀ ws key, s.wsKeys ws = none → s'.wsKeys ws = some key →
    (RateLimiter.isCleared o.toRateLimitOptions tenant key = true ∨
      ∀ ws', s.wsKeys ws' ≠ some key) ∧
    ∀ id, (Slot.conn ws id).Visible o attribution tenant →
      (s'.address o (.conn ws id)).bind s.limiter.buckets.get = none

variable {r : Except TenancyError JsString} {s'' : TenantLimiter W} {l : RateLimiter}

omit [DecidableEq W] in
theorem address_congr (h : s'.wsKeys = s.wsKeys) (slot : Slot W) :
    s'.address o slot = s.address o slot := by
  cases slot with
  | key k => rfl
  | conn ws id => rw [address, address, h]

/-- A call that is given a fresh key leaves every slot its bucket. -/
theorem Derived.bucketOf (h : Derived o attribution s ws raw id r s')
    (hfresh : GivesFresh o attribution tenant s s') (hvisible : slot.Visible o attribution tenant) :
    s'.bucketOf o slot = s.bucketOf o slot := by
  rw [TenantLimiter.bucketOf, TenantLimiter.bucketOf, h.limiter]
  rcases h.wsKeys with hsame | ⟨hnone, key, n, hgiven, -⟩
  · rw [address_congr hsame]
  cases slot with
  | key k => rfl
  | conn ws' id' =>
    by_cases heq : ws' = ws
    · subst heq
      have hkey : s'.wsKeys ws' = some key := by rw [hgiven, Function.update_self]
      rw [(hfresh ws' key hnone hkey).2 id' hvisible, address, hnone]
      rfl
    · rw [address, address, hgiven, Function.update_of_ne heq]

theorem Derived.held_of_fresh (h : Derived o attribution s ws raw id r s')
    (hheld : Held o attribution tenant s) (hfresh : GivesFresh o attribution tenant s s') :
    Held o attribution tenant s' := by
  rcases h.wsKeys with hsame | ⟨hnone, key, n, hgiven, hform⟩
  · exact ⟨by rw [hsame]; exact hheld.form, by rw [hsame]; exact hheld.distinct⟩
  have hkey : s'.wsKeys ws = some key := by rw [hgiven, Function.update_self]
  have hnew := (hfresh ws key hnone hkey).1
  have hother : ∀ {ws'}, ws' ≠ ws → s'.wsKeys ws' = s.wsKeys ws' := fun hne => by
    rw [hgiven, Function.update_of_ne hne]
  refine ⟨fun ws' key' hget => ?_, fun ws₁ ws₂ key' hcleared hget₁ hget₂ => ?_⟩
  · by_cases heq : ws' = ws
    · subst heq
      cases hkey.symm.trans hget
      exact ⟨n, hform⟩
    · exact hheld.form ws' key' ((hother heq).symm.trans hget)
  · have hfree : ∀ ws', ws' ≠ ws → s'.wsKeys ws' = some key' → s'.wsKeys ws ≠ some key' := by
      intro ws' hne hget hget'
      cases hkey.symm.trans hget'
      rcases hnew with hown | hnot
      · cases hcleared.symm.trans hown
      · exact hnot ws' ((hother hne).symm.trans hget)
    by_cases heq₁ : ws₁ = ws
    · subst heq₁
      by_contra hne
      exact hfree ws₂ (Ne.symm hne) hget₂ hget₁
    · by_cases heq₂ : ws₂ = ws
      · subst heq₂
        exact absurd hget₂ (hfree ws₁ heq₁ hget₁)
      · exact hheld.distinct ws₁ ws₂ key' hcleared ((hother heq₁).symm.trans hget₁)
          ((hother heq₂).symm.trans hget₂)

/-! ## The buckets after a call -/

theorem evicts_none_of_lt (hsize : l.buckets.size < o.maxBuckets) (points t : ℚ) :
    (l.bucketFor o.toRateLimitOptions key points t).1 = none := by
  rw [RateLimiter.bucketFor]
  cases l.buckets.get key with
  | some b => rfl
  | none => simp [RateLimiter.makeRoom, not_le.mpr hsize]

/-- The limiter after a sweep. -/
def TenantLimiter.sweep (s : TenantLimiter W) (t : ℚ) : TenantLimiter W :=
  { s with limiter := s.limiter.cleanup t }

section

variable (s)

section

omit [DecidableEq W]

theorem address_sweep (t : ℚ) (slot : Slot W) :
    (s.sweep t).address o slot = s.address o slot := address_congr rfl slot

theorem address_limiter (l : RateLimiter) (slot : Slot W) :
    ({ s with limiter := l } : TenantLimiter W).address o slot = s.address o slot :=
  address_congr rfl slot

theorem address_clear (id : Option JsString) (slot : Slot W) :
    (s.clear o id).address o slot = s.address o slot := address_congr rfl slot

theorem swept_sweep (t : ℚ) (slot : Slot W) :
    Swept t (s.bucketOf o slot) ((s.sweep t).bucketOf o slot) := by
  rw [bucketOf, bucketOf,
    address_sweep]
  cases s.address o slot with
  | none => exact .inl rfl
  | some key => exact swept_cleanup s.limiter t key

end

end

section

omit [DecidableEq W]

theorem bucketOf_of_get {f : Option Bucket → Option Bucket} (hget : ∀ other, l.buckets.get other =
      if key = other then f (s.limiter.buckets.get key) else s.limiter.buckets.get other)
    (slot : Slot W) : ({ s with limiter := l } : TenantLimiter W).bucketOf o slot =
      if s.address o slot = some key then f (s.bucketOf o slot) else s.bucketOf o slot := by
  rw [bucketOf, bucketOf,
    address_limiter]
  cases s.address o slot with
  | none => rw [if_neg (some_ne_none _).symm]; rfl
  | some other =>
    rw [bind_some, bind_some, hget]
    by_cases heq : key = other
    · rw [if_pos heq, if_pos (congrArg some heq.symm), heq]
    · rw [if_neg heq, if_neg fun hsome => heq (some.inj hsome).symm]

theorem bucketOf_consume (key : JsString) (cost t : ℚ)
    (hsize : s.limiter.buckets.size < o.maxBuckets) :
    (s.limiter.consume o.toRateLimitOptions key cost t).1.result =
        ((found o.toRateLimitOptions ((s.limiter.cleanup t).buckets.get key) t).consume
          o.toRateLimitOptions cost t 0).result ∧
      ∃ seq, ∀ slot,
        ({ s with limiter := (s.limiter.consume o.toRateLimitOptions key cost t).2.2 } :
            TenantLimiter W).bucketOf o slot =
          if s.address o slot = some key then
            some ((found o.toRateLimitOptions ((s.sweep t).bucketOf o slot) t).consume
              o.toRateLimitOptions cost t seq).bucket
          else (s.sweep t).bucketOf o slot := by
  have hroom : (s.limiter.cleanup t).buckets.size < o.maxBuckets :=
    (size_cleanup_le s.limiter t).trans_lt hsize
  have hnone : (s.limiter.consume o.toRateLimitOptions key cost t).2.1 = none :=
    evicts_none_of_lt hroom _ _
  obtain ⟨hresult, seq, hget⟩ := get_consume hnone
  refine ⟨hresult, seq, fun slot => ?_⟩
  exact bucketOf_of_get (s := s.sweep t) (f := fun r =>
    some ((found o.toRateLimitOptions r t).consume o.toRateLimitOptions cost t seq).bucket) hget slot

theorem Held.bucketOf_clear (h : Held o attribution tenant s)
    (hvisible : slot.Visible o attribution tenant) (id : Option JsString) :
    (s.clear o id).bucketOf o slot =
      if slot.isCleared o (id.getD []) = true then none else s.bucketOf o slot := by
  rw [bucketOf, bucketOf,
    address_clear]
  cases haddress : s.address o slot with
  | none => simp
  | some key =>
    rw [← h.isCleared_address hvisible haddress]
    exact get_clear s.limiter (id.getD []) key

end

/-! ## Calls of the tenant -/

theorem exists_raw_of_admin (h : adminBucketKey o.toRateLimitOptions raw id = .ok key) :
    ∃ raw', bucketKey o.toRateLimitOptions raw' id = .ok key := by
  rw [adminBucketKey] at h
  split_ifs at h
  · exact ⟨_, h⟩
  · exact ⟨_, h⟩

omit [DecidableEq W] in
theorem givesFresh_congr (h : GivesFresh o attribution tenant s s'') (hkeys : s'.wsKeys = s''.wsKeys) :
    GivesFresh o attribution tenant s s' := by
  intro ws key hnone hget
  obtain ⟨hfree, hempty⟩ := h ws key hnone (hkeys ▸ hget)
  exact ⟨hfree, fun id hvisible => by rw [address_congr hkeys]; exact hempty id hvisible⟩

section

variable (h : Held o attribution tenant s)
include h

omit [DecidableEq W] in
theorem Held.congr (hkeys : s'.wsKeys = s.wsKeys) : Held o attribution tenant s' :=
  ⟨by rw [hkeys]; exact h.form, by rw [hkeys]; exact h.distinct⟩

omit [DecidableEq W] in
/-- A call on a key of the tenant is seen by nobody else. -/
theorem Held.address_ne (hne : tenant ≠ []) (hvisible : slot.Visible o attribution tenant)
    (hkey : bucketKey o.toRateLimitOptions raw (some tenant) = .ok key) :
    s.address o slot ≠ some key := fun haddress =>
  absurd ((h.not_isCleared hne hvisible haddress).symm.trans (isCleared_of_tenant hne hkey))
    Bool.false_ne_true

/-- A call of the tenant, which at most sweeps the buckets of others. -/
theorem Held.tenant_call (hne : tenant ≠ []) {ev : TenancyEvent W}
    (hof : ev.isOf o attribution tenant = true) (hsize : s.limiter.buckets.size < o.maxBuckets)
    (hfresh : GivesFresh o attribution tenant s (s.call o attribution ev).2) :
    Held o attribution tenant (s.call o attribution ev).2 ∧
      ∀ slot : Slot W, slot.Visible o attribution tenant →
        (s.call o attribution ev).2.bucketOf o slot = s.bucketOf o slot ∨
          ∃ t, ev.time = some t ∧
            Swept t (s.bucketOf o slot) ((s.call o attribution ev).2.bucketOf o slot) := by
  have hadmin : ∀ (raw : JsString) (act : RateLimiter → JsString → RateLimiter),
      (∀ key, ∃ f : Option Bucket → Option Bucket, ∀ other, (act s.limiter key).buckets.get other =
        if key = other then f (s.limiter.buckets.get key) else s.limiter.buckets.get other) →
      Held o attribution tenant (s.admin o raw (some tenant) act) ∧
        ∀ slot : Slot W, slot.Visible o attribution tenant →
          (s.admin o raw (some tenant) act).bucketOf o slot = s.bucketOf o slot := by
    intro raw act hget
    rw [admin]
    cases hkey : adminBucketKey o.toRateLimitOptions raw (some tenant) with
    | error e => exact ⟨h, fun _ _ => rfl⟩
    | ok key =>
      refine ⟨h.congr rfl, fun slot hvisible => ?_⟩
      obtain ⟨raw', hraw⟩ := exists_raw_of_admin hkey
      obtain ⟨f, hf⟩ := hget key
      exact (bucketOf_of_get hf slot).trans
        (if_neg (h.address_ne hne hvisible hraw))
  cases ev with
  | consume ws raw resolved cost t =>
    have hid := of_decide_eq_true hof
    have hderived := derived_consumeKey ws raw (tenantOf o attribution ws resolved) h
      fun htenant => by
        rw [tenantOf, htenant, if_neg Bool.false_ne_true]
    simp only [call, consume] at hfresh ⊢
    split_ifs at hfresh ⊢
    · exact ⟨h, fun _ _ => .inl rfl⟩
    cases hkey : s.consumeKey o ws raw (tenantOf o attribution ws resolved) with
    | mk r s₁ =>
      rw [hkey] at hderived hfresh
      simp only at hderived hfresh ⊢
      cases r with
      | error e =>
        exact ⟨hderived.held_of_fresh h hfresh, fun slot hvisible =>
          .inl (hderived.bucketOf hfresh hvisible)⟩
      | ok key =>
        have hfresh₁ : GivesFresh o attribution tenant s s₁ := givesFresh_congr hfresh rfl
        have hheld₁ := hderived.held_of_fresh h hfresh₁
        refine ⟨hheld₁.congr rfl, fun slot hvisible => .inr ⟨t, rfl, ?_⟩⟩
        obtain ⟨-, seq, hget⟩ := bucketOf_consume key cost t
          (hderived.limiter ▸ hsize : s₁.limiter.buckets.size < o.maxBuckets)
        obtain ⟨raw', hraw⟩ := hderived.form
        rw [hid] at hraw
        rw [hget, if_neg (hheld₁.address_ne hne hvisible hraw.symm),
          ← hderived.bucketOf hfresh₁ hvisible]
        exact swept_sweep s₁ t slot
  | reset raw id =>
    obtain rfl := of_decide_eq_true hof
    obtain ⟨hheld, hsame⟩ := hadmin raw RateLimiter.reset fun key =>
      ⟨fun _ => none, get_reset s.limiter key⟩
    exact ⟨hheld, fun slot hvisible => .inl (hsame slot hvisible)⟩
  | unban raw id =>
    obtain rfl := of_decide_eq_true hof
    obtain ⟨hheld, hsame⟩ := hadmin raw RateLimiter.unban fun key =>
      ⟨fun r => r.map fun b => { b with bannedUntil := 0 }, get_unban s.limiter key⟩
    exact ⟨hheld, fun slot hvisible => .inl (hsame slot hvisible)⟩
  | ban raw duration id t =>
    obtain rfl := of_decide_eq_true hof
    obtain ⟨hheld, hsame⟩ := hadmin raw
      (fun l key => (l.ban o.toRateLimitOptions key duration t).2) fun key => by
        have hnone : (s.limiter.ban o.toRateLimitOptions key duration t).1 = none :=
          evicts_none_of_lt hsize 0 t
        obtain ⟨seq, hget⟩ := get_ban hnone
        exact ⟨fun r => some { r.getD (.fresh o.toRateLimitOptions 0 t) with
          bannedUntil := _, banSeq := seq }, hget⟩
    exact ⟨hheld, fun slot hvisible => .inl (hsame slot hvisible)⟩
  | clear id =>
    obtain rfl := of_decide_eq_true hof
    refine ⟨h.congr rfl, fun slot hvisible => .inl ?_⟩
    exact (h.bucketOf_clear hvisible (some tenant)).trans
      (if_neg (by simp [hvisible.not_isCleared hne]))

end

/-! ## Two runs -/

/-- What is seen of two limiters from outside the tenant. -/
def Seen (o : TenancyOptions) (attribution : W → Option JsString) (tenant : JsString) (now : ℚ)
    (left right : TenantLimiter W) : Prop :=
  ∀ slot : Slot W, slot.Visible o attribution tenant →
    Matched now (left.bucketOf o slot) (right.bucketOf o slot)

variable {now : ℚ} {left right left' right' : TenantLimiter W}

section

variable (h : Seen o attribution tenant now left right)
include h

section

omit [DecidableEq W]

theorem Seen.symm :
    Seen o attribution tenant now right left := fun slot hvisible => (h slot hvisible).symm

theorem Seen.mono (ht : now ≤ t) :
    Seen o attribution tenant t left right := fun slot hvisible => (h slot hvisible).mono ht

theorem Seen.act {r : RateLimiter} {f g : Option Bucket → Option Bucket}
    (hleft : ∀ other, l.buckets.get other =
      if key = other then f (left.limiter.buckets.get key) else left.limiter.buckets.get other)
    (hright : ∀ other, r.buckets.get other =
      if key = other then g (right.limiter.buckets.get key) else right.limiter.buckets.get other)
    (hsame : ∀ slot : Slot W, slot.Visible o attribution tenant →
      (left.address o slot = some key ↔ right.address o slot = some key))
    (hact : ∀ slot : Slot W, slot.Visible o attribution tenant → left.address o slot = some key →
      Matched now (f (left.bucketOf o slot)) (g (right.bucketOf o slot))) :
    Seen o attribution tenant now { left with limiter := l } { right with limiter := r } := by
  intro slot hvisible
  rw [bucketOf_of_get hleft, bucketOf_of_get hright]
  by_cases hkey : left.address o slot = some key
  · rw [if_pos hkey, if_pos ((hsame slot hvisible).mp hkey)]
    exact hact slot hvisible hkey
  · rw [if_neg hkey, if_neg fun hkey' => hkey ((hsame slot hvisible).mpr hkey')]
    exact h slot hvisible

end

end

omit [DecidableEq W] in
theorem Seen.consume (h : Seen o attribution tenant t left right) (cost : ℚ) (hne : tenant ≠ [])
    (hheld : Held o attribution tenant left) (hheld' : Held o attribution tenant right)
    (hsize : left.limiter.buckets.size < o.maxBuckets)
    (hsize' : right.limiter.buckets.size < o.maxBuckets) (ht : 0 ≤ t)
    (hvisible : slot.Visible o attribution tenant) (haddress : left.address o slot = some key)
    (haddress' : right.address o slot = some key') :
    (left.limiter.consume o.toRateLimitOptions key cost t).1.result =
        (right.limiter.consume o.toRateLimitOptions key' cost t).1.result ∧
      Seen o attribution tenant t
        { left with limiter := (left.limiter.consume o.toRateLimitOptions key cost t).2.2 }
        { right with limiter := (right.limiter.consume o.toRateLimitOptions key' cost t).2.2 } := by
  obtain ⟨hresult, seq, hget⟩ := bucketOf_consume key cost t hsize
  obtain ⟨hresult', seq', hget'⟩ := bucketOf_consume key' cost t hsize'
  have hswept : Seen o attribution tenant t (left.sweep t) (right.sweep t) :=
    fun slot hvisible => (h slot hvisible).swept (swept_sweep left t slot) (swept_sweep right t slot)
  have hfound : (left.sweep t).bucketOf o slot = (left.limiter.cleanup t).buckets.get key := by
    rw [bucketOf, address_sweep, haddress]
    rfl
  have hfound' : (right.sweep t).bucketOf o slot = (right.limiter.cleanup t).buckets.get key' := by
    rw [bucketOf, address_sweep, haddress']
    rfl
  refine ⟨?_, fun other hother => ?_⟩
  · rw [hresult, hresult', ← hfound, ← hfound']
    exact (agree_of_matched (hswept slot hvisible) ht).result
  · rw [hget, hget']
    by_cases heq : other = slot
    · subst heq
      rw [if_pos haddress, if_pos haddress']
      exact (hswept other hother).consume ht
    · rw [if_neg fun hkey => heq (hheld.eq_of_address hne hother hvisible hkey haddress),
        if_neg fun hkey => heq (hheld'.eq_of_address hne hother hvisible hkey haddress')]
      exact hswept other hother

theorem exists_slot (hne : tenant ≠ []) (hnul : 0 ∉ tenant) (hother : id ≠ some tenant)
    (hid : o.tenant = false → id = attribution ws)
    (hraw : o.budgetTenant = false → o.keyBy ≠ .connection → scopeOf id = none →
      (tenant ++ [0]).isPrefixOf raw = false)
    (hleft : Derived o attribution left ws raw id (.ok key) left')
    (hright : Derived o attribution right ws raw id (.ok key') right') :
    ∃ slot : Slot W, slot.Visible o attribution tenant ∧ left'.address o slot = some key ∧
      right'.address o slot = some key' := by
  cases hconn : o.perConnection with
  | true =>
    refine ⟨.conn ws (scopeOf id), ⟨hconn, scopeOf_scopeOf id, fun heq => ?_, fun htenant => ?_⟩,
      hleft.held hconn key rfl, hright.held hconn key' rfl⟩
    · exact hother (scopeOf_eq_some heq).1
    · rw [hid htenant]
  | false =>
    cases (hleft.plain hconn).trans (hright.plain hconn).symm
    refine ⟨.key key, ⟨hconn, ?_⟩, rfl, rfl⟩
    have hok := (hleft.plain hconn).symm
    cases hscope : scopeOf id with
    | some u =>
      refine not_isCleared_of_scope hne hnul hscope (fun heq => ?_) hok
      exact hother (heq ▸ (scopeOf_eq_some hscope).1)
    | none =>
      rcases bucketKey_ok hok with ⟨-, hbudget, hkey⟩ | ⟨u, hu, -⟩
      · rw [hbudget, if_neg Bool.false_ne_true] at hkey
        have hplain : o.keyBy ≠ .connection := by
          rintro heq
          simp [TenancyOptions.perConnection, hbudget, heq] at hconn
        have hfree := hraw hbudget hplain hscope
        rw [Bool.eq_false_iff, Ne, isCleared_iff hne, hkey, hbudget,
          ← isPrefixOf_iff_prefix, hfree]
        simp
      · rw [hscope] at hu
        cases hu

/-! ## Steps that keep keys apart -/

/-- A reading of the clock that is not before the last. -/
def Timely (clock : ℚ) (ev : TenancyEvent W) : Prop := clock ≤ ev.time.getD clock

/-- Both limiters are below their cap. -/
def Uncrowded (o : TenancyOptions) (p : Pair W) : Prop :=
  p.left.limiter.buckets.size < o.maxBuckets ∧ p.right.limiter.buckets.size < o.maxBuckets

/-- The slot that has a key is the same in both runs. -/
def SameHolder (o : TenancyOptions) (attribution : W → Option JsString) (tenant : JsString)
    (p : Pair W) (key : JsString) : Prop :=
  ∀ slot : Slot W, slot.Visible o attribution tenant →
    (p.left.address o slot = some key ↔ p.right.address o slot = some key)

/-- A call that does not take a key of the tenant for one without a tenant, and does the same to a
connection in both runs. -/
def KeepsApart (o : TenancyOptions) (attribution : W → Option JsString) (tenant : JsString)
    (p : Pair W) : TenancyEvent W → Prop
  | .consume ws raw resolved _ _ => o.budgetTenant = false → o.keyBy ≠ .connection →
      scopeOf (tenantOf o attribution ws resolved) = none →
      (tenant ++ [0]).isPrefixOf raw = false
  | .reset raw id | .unban raw id => ∀ key,
      adminBucketKey o.toRateLimitOptions raw id = .ok key → SameHolder o attribution tenant p key
  | .ban raw _ id _ => ∀ key, adminBucketKey o.toRateLimitOptions raw id = .ok key →
      SameHolder o attribution tenant p key ∧
      ∀ slot : Slot W, slot.Visible o attribution tenant → p.left.address o slot = some key →
        (p.left.bucketOf o slot).isSome = (p.right.bucketOf o slot).isSome
  | .clear _ => True

/-- A step of limiters below their cap, at a time not before the last, that keeps keys apart. -/
def Separate (o : TenancyOptions) (attribution : W → Option JsString) (tenant : JsString)
    (p : Pair W) : PairEvent W → Prop
  | .both ev => Uncrowded o p ∧ Timely p.leftClock ev ∧ Timely p.rightClock ev ∧
      GivesFresh o attribution tenant p.left (p.left.call o attribution ev).2 ∧
      GivesFresh o attribution tenant p.right (p.right.call o attribution ev).2 ∧
      KeepsApart o attribution tenant p ev
  | .left ev => Uncrowded o p ∧ Timely p.leftClock ev ∧
      GivesFresh o attribution tenant p.left (p.left.call o attribution ev).2
  | .right ev => Uncrowded o p ∧ Timely p.rightClock ev ∧
      GivesFresh o attribution tenant p.right (p.right.call o attribution ev).2

/-- Two runs that cannot be told apart from outside the tenant. -/
structure Isolated (o : TenancyOptions) (attribution : W → Option JsString) (tenant : JsString)
    (p : Pair W) : Prop where
  leftClock : 0 ≤ p.leftClock
  rightClock : 0 ≤ p.rightClock
  left : Held o attribution tenant p.left
  right : Held o attribution tenant p.right
  seen : Seen o attribution tenant (max p.leftClock p.rightClock) p.left p.right
  results : ∀ results ∈ p.results, results.1 = results.2

variable {p p' : Pair W} {ev : TenancyEvent W}

theorem isolated_init (clock : ℕ) :
    Isolated o attribution tenant (pairMachine o attribution tenant clock).init := by
  have hheld : Held o attribution tenant (.create : TenantLimiter W) := ⟨nofun, nofun⟩
  exact ⟨Nat.cast_nonneg clock, Nat.cast_nonneg clock, hheld, hheld,
    fun slot _ => Matched.refl _ _, forall_mem_nil _⟩

omit [DecidableEq W] in
/-- What is seen when one of the limiters has swept the slots of others at most. -/
theorem Seen.swept_left (h : Seen o attribution tenant now left right) {later : ℚ}
    (hnow : now ≤ later) (htime : ∀ t, ev.time = some t → t ≤ later)
    (hcall : ∀ slot : Slot W, slot.Visible o attribution tenant →
      left'.bucketOf o slot = left.bucketOf o slot ∨
        ∃ t, ev.time = some t ∧ Swept t (left.bucketOf o slot) (left'.bucketOf o slot)) :
    Seen o attribution tenant later left' right := by
  intro slot hvisible
  rcases hcall slot hvisible with hsame | ⟨t, ht, hswept⟩
  · rw [hsame]
    exact (h slot hvisible).mono hnow
  · exact ((h slot hvisible).mono hnow).swept_left hswept (htime t ht)

theorem le_getD {clock later t : ℚ} {time : Option ℚ} (h : time = some t)
    (hle : time.getD clock ≤ later) : t ≤ later := by
  rw [h] at hle
  exact hle

section

variable (h : Isolated o attribution tenant p)
include h

theorem Isolated.left_call (hne : tenant ≠ []) (hof : ev.isOf o attribution tenant = true)
    (hok : Separate o attribution tenant p (.left ev)) :
    Isolated o attribution tenant
      { p with
        left := (p.left.call o attribution ev).2
        leftClock := ev.time.getD p.leftClock } := by
  obtain ⟨hsize, htimely, hfresh⟩ := hok
  obtain ⟨hheld, hcall⟩ := h.left.tenant_call hne hof hsize.1 hfresh
  refine ⟨h.leftClock.trans htimely, h.rightClock, hheld, h.right, ?_, h.results⟩
  exact h.seen.swept_left (max_le_max htimely le_rfl)
    (fun t ht => le_getD ht (le_max_left ..)) hcall

theorem Isolated.right_call (hne : tenant ≠ []) (hof : ev.isOf o attribution tenant = true)
    (hok : Separate o attribution tenant p (.right ev)) :
    Isolated o attribution tenant
      { p with
        right := (p.right.call o attribution ev).2
        rightClock := ev.time.getD p.rightClock } := by
  obtain ⟨hsize, htimely, hfresh⟩ := hok
  obtain ⟨hheld, hcall⟩ := h.right.tenant_call hne hof hsize.2 hfresh
  refine ⟨h.leftClock, h.rightClock.trans htimely, h.left, hheld, ?_, h.results⟩
  exact (h.seen.symm.swept_left (max_le_max le_rfl htimely)
    (fun t ht => le_getD ht (le_max_right ..)) hcall).symm

theorem Isolated.consume (hne : tenant ≠ []) (hnul : 0 ∉ tenant) {resolved : Option JsString}
    (hof : (TenancyEvent.consume ws raw resolved cost t).isOf o attribution tenant = false)
    (hok : Separate o attribution tenant p (.both (.consume ws raw resolved cost t))) :
    (p.left.consume o ws raw (tenantOf o attribution ws resolved) cost t).1 =
        (p.right.consume o ws raw (tenantOf o attribution ws resolved) cost t).1 ∧
      Held o attribution tenant
        (p.left.consume o ws raw (tenantOf o attribution ws resolved) cost t).2 ∧
      Held o attribution tenant
        (p.right.consume o ws raw (tenantOf o attribution ws resolved) cost t).2 ∧
      Seen o attribution tenant t
        (p.left.consume o ws raw (tenantOf o attribution ws resolved) cost t).2
        (p.right.consume o ws raw (tenantOf o attribution ws resolved) cost t).2 := by
  obtain ⟨hsize, hleft, hright, hfresh, hfresh', hraw⟩ := hok
  have ht : max p.leftClock p.rightClock ≤ t := max_le hleft hright
  have hseen := h.seen.mono ht
  have hother := of_decide_eq_false hof
  have hid : o.tenant = false → tenantOf o attribution ws resolved = attribution ws :=
    fun htenant => by rw [tenantOf, htenant, if_neg Bool.false_ne_true]
  have hderived := derived_consumeKey ws raw _ h.left hid
  have hderived' := derived_consumeKey ws raw _ h.right hid
  simp only [TenantLimiter.call, TenantLimiter.consume] at hfresh hfresh' ⊢
  split_ifs at hfresh hfresh' ⊢
  · exact ⟨rfl, h.left, h.right, hseen⟩
  cases hkey : p.left.consumeKey o ws raw (tenantOf o attribution ws resolved) with
  | mk r s =>
    cases hkey' : p.right.consumeKey o ws raw (tenantOf o attribution ws resolved) with
    | mk r' s' =>
      rw [hkey] at hderived hfresh
      rw [hkey'] at hderived' hfresh'
      simp only at hderived hderived' hfresh hfresh' ⊢
      obtain ⟨x, hx⟩ := hderived.form
      obtain ⟨x', hx'⟩ := hderived'.form
      cases r with
      | error e =>
        have he : r' = .error e := hx'.trans (bucketKey_error hx.symm x')
        subst he
        refine ⟨rfl, hderived.held_of_fresh h.left hfresh,
          hderived'.held_of_fresh h.right hfresh', fun slot hvisible => ?_⟩
        simp only [hderived.bucketOf hfresh hvisible, hderived'.bucketOf hfresh' hvisible]
        exact hseen slot hvisible
      | ok key =>
        cases r' with
        | error e =>
          have he := hx.trans (bucketKey_error hx'.symm x)
          cases he
        | ok key' =>
          have hfresh₁ : GivesFresh o attribution tenant p.left s := givesFresh_congr hfresh rfl
          have hfresh₂ : GivesFresh o attribution tenant p.right s' :=
            givesFresh_congr hfresh' rfl
          have hheld := hderived.held_of_fresh h.left hfresh₁
          have hheld' := hderived'.held_of_fresh h.right hfresh₂
          obtain ⟨slot, hvisible, haddress, haddress'⟩ :=
            exists_slot hne hnul hother hid hraw hderived hderived'
          have hseen' : Seen o attribution tenant t s s' := fun slot hvisible => by
            rw [hderived.bucketOf hfresh₁ hvisible, hderived'.bucketOf hfresh₂ hvisible]
            exact hseen slot hvisible
          obtain ⟨hresult, hnext⟩ := hseen'.consume cost hne hheld hheld'
            (hderived.limiter ▸ hsize.1) (hderived'.limiter ▸ hsize.2)
            (h.leftClock.trans hleft) hvisible haddress haddress'
          exact ⟨congrArg Except.ok hresult, hheld.congr rfl, hheld'.congr rfl, hnext⟩

omit [DecidableEq W] in
theorem Isolated.admin (raw : JsString) (id : Option JsString)
    (act act' : RateLimiter → JsString → RateLimiter) (ht : max p.leftClock p.rightClock ≤ t)
    (hact : ∀ key, adminBucketKey o.toRateLimitOptions raw id = .ok key →
      SameHolder o attribution tenant p key ∧
      ∃ f g : Option Bucket → Option Bucket,
        (∀ other, (act p.left.limiter key).buckets.get other =
          if key = other then f (p.left.limiter.buckets.get key)
          else p.left.limiter.buckets.get other) ∧
        (∀ other, (act' p.right.limiter key).buckets.get other =
          if key = other then g (p.right.limiter.buckets.get key)
          else p.right.limiter.buckets.get other) ∧
        ∀ slot : Slot W, slot.Visible o attribution tenant → p.left.address o slot = some key →
          Matched t (f (p.left.bucketOf o slot)) (g (p.right.bucketOf o slot))) :
    Held o attribution tenant (p.left.admin o raw id act) ∧
      Held o attribution tenant (p.right.admin o raw id act') ∧
      Seen o attribution tenant t (p.left.admin o raw id act) (p.right.admin o raw id act') := by
  have hseen := h.seen.mono ht
  rw [TenantLimiter.admin, TenantLimiter.admin]
  cases hkey : adminBucketKey o.toRateLimitOptions raw id with
  | error e => exact ⟨h.left, h.right, hseen⟩
  | ok key =>
    obtain ⟨hsame, f, g, hf, hg, hmatched⟩ := hact key hkey
    exact ⟨h.left.congr rfl, h.right.congr rfl, hseen.act hf hg hsame hmatched⟩

theorem Isolated.both_call (hne : tenant ≠ []) (hnul : 0 ∉ tenant)
    (hof : ev.isOf o attribution tenant = false) (hok : Separate o attribution tenant p (.both ev)) :
    Isolated o attribution tenant
      ⟨(p.left.call o attribution ev).2, (p.right.call o attribution ev).2,
        ev.time.getD p.leftClock, ev.time.getD p.rightClock,
        p.results ++ [((p.left.call o attribution ev).1, (p.right.call o attribution ev).1)]⟩ := by
  have hleft := h.leftClock.trans hok.2.1
  have hright := h.rightClock.trans hok.2.2.1
  have hresults : ∀ {r r' : Option (Except TenancyError ConsumeResult)}, r = r' →
      ∀ results ∈ p.results ++ [(r, r')], results.1 = results.2 := by
    intro r r' heq results hmem
    rcases mem_concat.mp hmem with hmem | rfl
    · exact h.results results hmem
    · exact heq
  have hzero : 0 ≤ max p.leftClock p.rightClock := h.leftClock.trans (le_max_left ..)
  cases ev with
  | consume ws raw resolved cost t =>
    obtain ⟨hresult, hheld, hheld', hseen⟩ := h.consume hne hnul hof hok
    exact ⟨hleft, hright, hheld, hheld', (max_self t).symm ▸ hseen,
      hresults (congrArg some hresult)⟩
  | reset raw id =>
    obtain ⟨hheld, hheld', hseen⟩ := h.admin raw id .reset .reset le_rfl fun key hkey =>
      ⟨hok.2.2.2.2.2 key hkey, fun _ => none, fun _ => none, get_reset p.left.limiter key,
        get_reset p.right.limiter key, fun _ _ _ => trivial⟩
    exact ⟨hleft, hright, hheld, hheld', hseen, hresults rfl⟩
  | unban raw id =>
    obtain ⟨hheld, hheld', hseen⟩ := h.admin raw id .unban .unban le_rfl fun key hkey =>
      ⟨hok.2.2.2.2.2 key hkey, _, _, get_unban p.left.limiter key,
        get_unban p.right.limiter key, fun slot hvisible _ => (h.seen slot hvisible).unban hzero⟩
    exact ⟨hleft, hright, hheld, hheld', hseen, hresults rfl⟩
  | ban raw duration id t =>
    have ht : max p.leftClock p.rightClock ≤ t := max_le hok.2.1 hok.2.2.1
    obtain ⟨hheld, hheld', hseen⟩ := h.admin raw id
        (fun l key => (l.ban o.toRateLimitOptions key duration t).2)
        (fun l key => (l.ban o.toRateLimitOptions key duration t).2) ht fun key hkey => by
      obtain ⟨hsame, hsome⟩ := hok.2.2.2.2.2 key hkey
      have hnone : (p.left.limiter.ban o.toRateLimitOptions key duration t).1 = none :=
        evicts_none_of_lt hok.1.1 0 t
      have hnone' : (p.right.limiter.ban o.toRateLimitOptions key duration t).1 = none :=
        evicts_none_of_lt hok.1.2 0 t
      obtain ⟨seq, hget⟩ := get_ban hnone
      obtain ⟨seq', hget'⟩ := get_ban hnone'
      exact ⟨hsame,
        fun r => some { r.getD (.fresh o.toRateLimitOptions 0 t) with
          bannedUntil := _, banSeq := seq },
        fun r => some { r.getD (.fresh o.toRateLimitOptions 0 t) with
          bannedUntil := _, banSeq := seq' }, hget, hget',
        fun slot hvisible haddress => ((h.seen slot hvisible).mono ht).ban
          (hsome slot hvisible haddress) _⟩
    exact ⟨hleft, hright, hheld, hheld', (max_self t).symm ▸ hseen, hresults rfl⟩
  | clear id =>
    refine ⟨hleft, hright, h.left.congr rfl, h.right.congr rfl, fun slot hvisible => ?_,
      hresults rfl⟩
    simp only [call, h.left.bucketOf_clear hvisible,
      h.right.bucketOf_clear hvisible]
    split_ifs
    · trivial
    · exact h.seen slot hvisible

end

/-- In runs of such steps, what a tenant does changes no result of others. -/
theorem isolated_of_separate (o : TenancyOptions) (attribution : W → Option JsString)
    (tenant : JsString) (hne : tenant ≠ []) (hnul : 0 ∉ tenant) (clock : ℕ)
    {es : List (PairEvent W)}
    (hrun : (pairMachine o attribution tenant clock).ReachesWhere
      (Separate o attribution tenant) es p) :
    ∀ results ∈ p.results, results.1 = results.2 := by
  have hisolated : Isolated o attribution tenant p := by
    refine hrun.invariant (I := Isolated o attribution tenant) (isolated_init clock) ?_
    intro p ev p' hp hok hstep
    cases ev with
    | both ev =>
      simp only [pairMachine, ite_none_left_eq_some, Bool.not_eq_true] at hstep
      exact some.inj hstep.2 ▸ hp.both_call hne hnul hstep.1 hok
    | left ev =>
      simp only [pairMachine, ite_none_right_eq_some] at hstep
      exact some.inj hstep.2 ▸ hp.left_call hne hstep.1 hok
    | right ev =>
      simp only [pairMachine, ite_none_right_eq_some] at hstep
      exact some.inj hstep.2 ▸ hp.right_call hne hstep.1 hok
  exact hisolated.results

/-! ## A tenant and others -/

omit [DecidableEq W] in
theorem givesFresh_of_plain (h : s'.wsKeys = s.wsKeys) :
    GivesFresh o attribution tenant s s' := by
  intro ws key hnone hget
  rw [h, hnone] at hget
  cases hget

instance {p : Pair W} : Decidable (Uncrowded o p) :=
  inferInstanceAs (Decidable (p.left.limiter.buckets.size < o.maxBuckets ∧
    p.right.limiter.buckets.size < o.maxBuckets))

/-- One call in a second for each user. -/
def userOptions : TenancyOptions :=
  { points := 1, interval := 1000, blockDuration := 0, maxBuckets := 100, evictionSample := 2
    budgetTenant := false, keyBy := .custom, tenant := false, points_pos := Nat.one_pos
    interval_pos := second_pos, blockDuration_nonneg := noBlock_nonneg }

/-- The tenants of three connections, the last of which has none. -/
def tenants : ℕ → Option JsString
  | 0 => some (lit "t")
  | 1 => some (lit "u")
  | _ => none

/-- A call for a user. -/
def userCall (ws : ℕ) (raw : JsString) : TenancyEvent ℕ := .consume ws raw none 1 0

/-- The runs after the first tenant has used up the allowance of its user in one of them. -/
def usedUp : Pair ℕ :=
  let p := (pairMachine userOptions tenants (lit "t") 0).init
  { p with left := (p.left.call userOptions tenants (userCall 0 (lit "x"))).2 }

/-- A user of another tenant with the same key is let through in both runs. -/
theorem isolated_of_separate_userCall :
    ∃ p, (pairMachine userOptions tenants (lit "t") 0).ReachesWhere
        (Separate userOptions tenants (lit "t"))
        [.left (userCall 0 (lit "x")), .both (userCall 1 (lit "x"))] p ∧
      p.results = [(some (.ok ⟨true, 0, 1000⟩), some (.ok ⟨true, 0, 1000⟩))] ∧
      ∀ results ∈ p.results, results.1 = results.2 := by
  have hused : Separate userOptions tenants (lit "t")
      (pairMachine userOptions tenants (lit "t") 0).init (.left (userCall 0 (lit "x"))) :=
    ⟨by decide +kernel, le_rfl, givesFresh_of_plain rfl⟩
  have hother : Separate userOptions tenants (lit "t") usedUp (.both (userCall 1 (lit "x"))) :=
    ⟨by decide +kernel, le_rfl, le_rfl, givesFresh_of_plain rfl, givesFresh_of_plain rfl,
      fun _ _ hscope => absurd hscope (by decide +kernel)⟩
  have hfirst : (pairMachine userOptions tenants (lit "t") 0).ReachesWhere
      (Separate userOptions tenants (lit "t")) [.left (userCall 0 (lit "x"))] usedUp :=
    .next .start hused rfl
  have hrun := hfirst.next hother rfl
  exact ⟨_, hrun, by decide +kernel, isolated_of_separate userOptions tenants (lit "t")
    (by decide +kernel) (by decide +kernel) 0 hrun⟩

/-- A user without a tenant, with a key that looks like one of the tenant, is refused in the run
where the tenant's user has used up its allowance. -/
theorem not_isolated_userCall :
    ∃ p, (pairMachine userOptions tenants (lit "t") 0).ReachesWhere
        (fun p _ => Uncrowded userOptions p)
        [.left (userCall 0 (lit "x")), .both (userCall 2 (lit "t" ++ 0 :: lit "x"))] p ∧
      p.results = [(some (.ok ⟨false, 0, 1000⟩), some (.ok ⟨true, 0, 1000⟩))] ∧
      ¬∀ results ∈ p.results, results.1 = results.2 := by
  obtain ⟨p, hrun, hresults⟩ : ∃ p, (pairMachine userOptions tenants (lit "t") 0).ReachesWhere
      (fun p _ => Uncrowded userOptions p) [.left (userCall 0 (lit "x")),
      .both (userCall 2 (lit "t" ++ 0 :: lit "x"))] p ∧ p.results =
      [(some (.ok ⟨false, 0, 1000⟩), some (.ok ⟨true, 0, 1000⟩))] :=
    Machine.exists_of_execWhere (by decide +kernel)
  refine ⟨p, hrun, hresults, fun hall => ?_⟩
  have hsame := hall _ (hresults ▸ mem_singleton_self _)
  exact absurd hsame (by decide +kernel)

end AdapterWs.RateLimit
