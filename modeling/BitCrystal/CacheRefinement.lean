import BitCrystal.CoinsCache

namespace BitCrystal

open Data

/-! # A stack of coins caches is one map for each view -/

/-- Every entry of a map is one of `Kept`. -/
def CoinsMap.All (Kept : CCoins → Prop) (mapCoins : CoinsMap) : Prop :=
  ∀ (txid : UInt256) (coins : CCoins), mapCoins[txid]? = some coins → Kept coins

/-- The laws of a base view. It keeps the entries of `Kept` and the best blocks of
`Known`; a batch is the same as setting its entries and its best block one by one. -/
structure BackingView.Lawful {View : Type} [BackingView View] (Good : View → Prop) (Kept : CCoins → Prop)
    (Known : UInt256 → Prop) : Prop where
  kept : ∀ {base : View} {txid : UInt256} {coins : CCoins}, Good base →
    BackingView.getCoins base txid = some coins → Kept coins
  known : ∀ {base : View} {pindex : UInt256}, Good base → BackingView.getBestBlock base = some pindex → Known pindex
  good : ∀ {base : View} {mapCoins : CoinsMap} (pindex : Option UInt256), Good base → mapCoins.All Kept →
    Good (BackingView.batchWrite base mapCoins pindex)
  coins : ∀ {base : View} {mapCoins : CoinsMap} (pindex : Option UInt256) (txid : UInt256), Good base →
    mapCoins.All Kept → (BackingView.getCoins (BackingView.batchWrite base mapCoins pindex) txid).bind CCoins.entry =
      match mapCoins[txid]? with
      | some coins => coins.entry
      | none => (BackingView.getCoins base txid).bind CCoins.entry
  best : ∀ {base : View} {mapCoins : CoinsMap} (pindex : Option UInt256), Good base → (∀ known, pindex = some known → Known known) →
    BackingView.getBestBlock (BackingView.batchWrite base mapCoins pindex) =
      pindex.or (BackingView.getBestBlock base)

/-- A cache whose content the base view can take. -/
structure CCoinsViewCache.Fits (Kept : CCoins → Prop) (Known : UInt256 → Prop) (cache : CCoinsViewCache) :
    Prop where
  kept : cache.cacheCoins.All Kept
  known : ∀ pindex, cache.pindexTip = some pindex → Known pindex

theorem CCoinsViewCache.Fits.remember {Kept : CCoins → Prop} {Known : UInt256 → Prop} {cache : CCoinsViewCache}
    (fits : cache.Fits Kept Known) {coins : CCoins} (keeps : Kept coins) (txid : UInt256) :
    (cache.remember txid coins).Fits Kept Known where
  kept other found present := by
    rw [CCoinsViewCache.remember, Std.ExtTreeMap.getElem?_insert] at present
    split at present
    · cases present
      exact keeps
    · exact fits.kept other found present
  known := fits.known

namespace FlatCoins

variable {flat : FlatCoins} {cache : CCoinsViewCache} {txid : UInt256} {coins : CCoins}

theorem under_remember (flat : FlatCoins) (cache : CCoinsViewCache) (txid : UInt256) (coins : CCoins) :
    flat.under (cache.remember txid coins) = (flat.under cache).write (.setCoins txid coins) := by
  apply FlatCoins.ext
  · funext other
    by_cases same : txid = other
    · subst same
      simp [under, write, CCoinsViewCache.remember]
    · have different : other ≠ txid := Ne.symm same
      simp [under, write, CCoinsViewCache.remember, Std.ExtTreeMap.getElem?_insert, same,
        Function.update_of_ne different]
  · rfl

theorem under_fetched (shown : (flat.under cache).coins txid = coins.entry) :
    flat.under (cache.remember txid coins) = flat.under cache := by
  rw [under_remember, write, ← shown, Function.update_eq_self]

theorem under_noted {pindex : Option UInt256} (unset : cache.pindexTip = none) (shown : pindex = flat.best) :
    flat.under { cache with pindexTip := pindex } = flat.under cache := by
  apply FlatCoins.ext
  · rfl
  · rw [under, under, unset, shown]
    cases flat.best <;> rfl

theorem under_applyBatch {mapCoins : CoinsMap} {pindex : Option UInt256}
    (set : pindex = none → cache.pindexTip = none) :
    flat.under ⟨applyBatch some mapCoins cache.cacheCoins, pindex⟩ = (flat.under cache).under ⟨mapCoins, pindex⟩ := by
  apply FlatCoins.ext
  · funext txid
    simp only [under, getElem?_applyBatch]
    cases mapCoins[txid]? <;> rfl
  · cases pindex with
    | none => simp [under, set rfl]
    | some pindex => rfl

theorem under_flushed : (flat.under cache).under { cache with cacheCoins := ∅ } = flat.under cache := by
  apply FlatCoins.ext
  · funext txid
    simp [under]
  · simp only [under]
    cases cache.pindexTip <;> rfl

end FlatCoins

/-! ## Calls that keep the views apart from each other -/

namespace CoinsCall

/-- A cache above the one that is called holds nothing of what the call writes:
what it holds is not updated. -/
def Unshadowed (cache : CCoinsViewCache) : CoinsCall → Prop
  | .setCoins txid _ => cache.cacheCoins[txid]? = none
  | .setBestBlock _ => cache.pindexTip = none
  | .batchWrite mapCoins _ =>
      (∀ (txid : UInt256) (coins : CCoins), mapCoins[txid]? = some coins → cache.cacheCoins[txid]? = none) ∧
        cache.pindexTip = none
  | .getCoins _ | .haveCoins _ | .getBestBlock | .flush _ => True

/-- A null best block does not replace one that is set. -/
def Sets (pindex : Option UInt256) (cache : CCoinsViewCache) : Prop :=
  pindex = none → cache.pindexTip = none

def Permitted (Kept : CCoins → Prop) (Known : UInt256 → Prop) (cache : CCoinsViewCache)
    (below : List CCoinsViewCache) : CoinsCall → Prop
  | .setCoins _ coins => Kept coins
  | .setBestBlock pindex => (∀ known, pindex = some known → Known known) ∧ Sets pindex cache
  | .batchWrite mapCoins pindex =>
      CCoinsViewCache.Fits Kept Known ⟨mapCoins, pindex⟩ ∧ Sets pindex cache
  | .flush _ => ∀ lower, below.head? = some lower → Sets cache.pindexTip lower
  | .getCoins _ | .haveCoins _ | .getBestBlock => True

def Allowed (Kept : CCoins → Prop) (Known : UInt256 → Prop) (request : CoinsCall) :
    Nat → List CCoinsViewCache → Prop
  | _, [] => False
  | 0, cache :: below => request.Permitted Kept Known cache below
  | depth + 1, cache :: below => request.Unshadowed cache ∧ Allowed Kept Known request depth below

end CoinsCall

theorem FlatCoins.under_write {flat : FlatCoins} {cache : CCoinsViewCache} {request : CoinsCall}
    (unshadowed : request.Unshadowed cache) : (flat.write request).under cache = (flat.under cache).write request := by
  cases request with
  | getCoins | haveCoins | getBestBlock | flush => rfl
  | setCoins txid coins =>
      have absent : cache.cacheCoins[txid]? = none := unshadowed
      apply FlatCoins.ext
      · funext other
        by_cases same : other = txid
        · subst same
          simp [under, write, absent]
        · simp only [under, write, Function.update_of_ne same]
      · rfl
  | setBestBlock pindex =>
      have unset : cache.pindexTip = none := unshadowed
      apply FlatCoins.ext
      · rfl
      · simp [under, write, unset]
  | batchWrite mapCoins pindex =>
      obtain ⟨absent, unset⟩ := unshadowed
      apply FlatCoins.ext
      · funext txid
        cases found : mapCoins[txid]? with
        | none => simp [under, write, found]
        | some coins => simp [under, write, found, absent txid coins found]
      · simp [under, write, unset]

/-- A stack whose caches the base view can take. -/
structure CoinsStack.Fits {View : Type} (Good : View → Prop) (Kept : CCoins → Prop) (Known : UInt256 → Prop)
    (stack : CoinsStack View) : Prop where
  base : Good stack.base
  caches : ∀ cache ∈ stack.caches, cache.Fits Kept Known

theorem CoinsStack.Fits.cons {View : Type} {Good : View → Prop} {Kept : CCoins → Prop} {Known : UInt256 → Prop}
    {lower : CoinsStack View} {cache : CCoinsViewCache} (lowerFits : lower.Fits Good Kept Known)
    (cacheFits : cache.Fits Kept Known) :
    (CoinsStack.mk (cache :: lower.caches) lower.base).Fits Good Kept Known where
  base := lowerFits.base
  caches other member := by
    cases List.mem_cons.mp member with
    | inl first => exact first ▸ cacheFits
    | inr later => exact lowerFits.caches other later

namespace CoinsStack

variable {View : Type} [BackingView View]

/-- The map that the uppermost of some caches stands for. -/
def view (base : View) : List CCoinsViewCache → FlatCoins
  | [] => ⟨fun txid => (BackingView.getCoins base txid).bind CCoins.entry, BackingView.getBestBlock base⟩
  | cache :: below => (view base below).under cache

def viewsOf (base : View) : List CCoinsViewCache → List FlatCoins
  | [] => [view base []]
  | cache :: below => view base (cache :: below) :: viewsOf base below

/-- The maps of all views of a stack, from the uppermost to the base view. -/
def views (stack : CoinsStack View) : List FlatCoins :=
  viewsOf stack.base stack.caches

/-- Calls that may be made one after the other. -/
def AllowedRun (Kept : CCoins → Prop) (Known : UInt256 → Prop) :
    CoinsStack View → List (Nat × CoinsCall) → Prop
  | _, [] => True
  | stack, request :: requests =>
      request.2.Allowed Kept Known request.1 stack.caches ∧ AllowedRun Kept Known (stack.step request).2 requests

variable {Good : View → Prop} {Kept : CCoins → Prop} {Known : UInt256 → Prop}

theorem viewsOf_eq (base : View) (caches : List CCoinsViewCache) :
    ∃ lower, viewsOf base caches = view base caches :: lower := by
  cases caches with
  | nil => exact ⟨[], rfl⟩
  | cons cache below => exact ⟨viewsOf base below, rfl⟩

theorem view_of_viewsOf {one other : View} {caches changed : List CCoinsViewCache}
    (same : viewsOf one caches = viewsOf other changed) : view one caches = view other changed := by
  obtain ⟨_, left⟩ := viewsOf_eq one caches
  obtain ⟨_, right⟩ := viewsOf_eq other changed
  rw [left, right] at same
  exact (List.cons.inj same).1

end CoinsStack

/-! ## Reading -/

structure CoinsStack.ReadsOnly {View : Type} [BackingView View] (Kept : CCoins → Prop) (Known : UInt256 → Prop)
    (base : View) (caches after : List CCoinsViewCache) : Prop where
  views : CoinsStack.viewsOf base after = CoinsStack.viewsOf base caches
  fits : ∀ cache ∈ after, cache.Fits Kept Known

namespace CCoinsViewCache

open CoinsStack

variable {View : Type} [BackingView View] {Good : View → Prop} {Kept : CCoins → Prop} {Known : UInt256 → Prop}
  {base : View} {caches after : List CCoinsViewCache}

theorem getCoins_reads (lawful : BackingView.Lawful Good Kept Known) (good : Good base) {txid : UInt256}
    {found : Option CCoins} (fits : ∀ cache ∈ caches, cache.Fits Kept Known)
    (run : getCoins base txid caches = (found, after)) :
    found.bind CCoins.entry = (view base caches).coins txid ∧ (∀ coins, found = some coins → Kept coins) ∧
      ReadsOnly Kept Known base caches after := by
  induction caches generalizing found after with
  | nil =>
      cases run
      exact ⟨rfl, fun coins present => lawful.kept good present, rfl, fits⟩
  | cons cache below ih =>
      rw [getCoins] at run
      cases cached : cache.cacheCoins[txid]? with
      | some coins =>
          simp only [cached, Prod.mk.injEq] at run
          obtain ⟨rfl, rfl⟩ := run
          refine ⟨?_, ?_, rfl, fits⟩
          · simp [view, FlatCoins.under, cached]
          · intro coins present
            cases present
            exact (fits cache List.mem_cons_self).kept txid _ cached
      | none =>
          cases lower : getCoins base txid below with
          | mk fetched rest =>
          obtain ⟨shown, kept, views, restFits⟩ :=
            ih (fun other member => fits other (List.mem_cons_of_mem cache member)) lower
          have same : view base rest = view base below := view_of_viewsOf views
          have missing : (view base (cache :: below)).coins txid = (view base below).coins txid := by
            simp [view, FlatCoins.under, cached]
          cases fetched with
          | none =>
              simp only [cached, lower, Prod.mk.injEq] at run
              obtain ⟨rfl, rfl⟩ := run
              refine ⟨shown.trans missing.symm, kept, ?_, ?_⟩
              · rw [viewsOf, viewsOf, view, view, same, views]
              · intro other member
                cases List.mem_cons.mp member with
                | inl first => exact first ▸ fits cache List.mem_cons_self
                | inr later => exact restFits other later
          | some coins =>
              simp only [cached, lower, Prod.mk.injEq] at run
              obtain ⟨rfl, rfl⟩ := run
              have entry : ((view base below).under cache).coins txid = coins.entry :=
                missing.trans shown.symm
              refine ⟨shown.trans missing.symm, kept, ?_, ?_⟩
              · rw [viewsOf, viewsOf, view, view, same, views, FlatCoins.under_fetched entry]
              · intro other member
                cases List.mem_cons.mp member with
                | inl first =>
                    exact first ▸ (fits cache List.mem_cons_self).remember (kept coins rfl) txid
                | inr later => exact restFits other later

theorem getBestBlock_reads (lawful : BackingView.Lawful Good Kept Known) (good : Good base)
    {pindex : Option UInt256} (fits : ∀ cache ∈ caches, cache.Fits Kept Known)
    (run : getBestBlock base caches = (pindex, after)) :
    pindex = (view base caches).best ∧ (∀ known, pindex = some known → Known known) ∧
      ReadsOnly Kept Known base caches after := by
  induction caches generalizing pindex after with
  | nil =>
      cases run
      exact ⟨rfl, fun known present => lawful.known good present, rfl, fits⟩
  | cons cache below ih =>
      rw [getBestBlock] at run
      have first := fits cache List.mem_cons_self
      cases tip : cache.pindexTip with
      | some known =>
          simp only [tip, Prod.mk.injEq] at run
          obtain ⟨rfl, rfl⟩ := run
          refine ⟨by simp [view, FlatCoins.under, tip], ?_, rfl, fits⟩
          intro other present
          cases present
          exact first.known known tip
      | none =>
          cases lower : getBestBlock base below with
          | mk fetched rest =>
          obtain ⟨shown, known, views, restFits⟩ :=
            ih (fun other member => fits other (List.mem_cons_of_mem cache member)) lower
          simp only [tip, lower, Prod.mk.injEq] at run
          obtain ⟨rfl, rfl⟩ := run
          refine ⟨by simp [view, FlatCoins.under, tip, shown], known, ?_, ?_⟩
          · rw [viewsOf, viewsOf, view, view, view_of_viewsOf views, views, FlatCoins.under_noted tip shown]
          · intro other member
            cases List.mem_cons.mp member with
            | inl same => exact same ▸ ⟨first.kept, known⟩
            | inr later => exact restFits other later

end CCoinsViewCache

/-! ## Writing -/

theorem CoinsMap.All.applyBatch {Kept : CCoins → Prop} {mapCoins cacheCoins : CoinsMap}
    (changes : mapCoins.All Kept) (before : cacheCoins.All Kept) :
    CoinsMap.All Kept (applyBatch some mapCoins cacheCoins) := by
  intro txid coins found
  rw [getElem?_applyBatch] at found
  cases changed : mapCoins[txid]? with
  | none =>
      rw [changed] at found
      exact before txid coins found
  | some value =>
      rw [changed] at found
      cases found
      exact changes txid _ changed

namespace CoinsStack

variable {View : Type} [BackingView View] {Good : View → Prop} {Kept : CCoins → Prop} {Known : UInt256 → Prop}
  {stack lower after : CoinsStack View} {cache : CCoinsViewCache}

theorem batchWrite_spec (lawful : BackingView.Lawful Good Kept Known) (fits : stack.Fits Good Kept Known)
    (content : cache.Fits Kept Known)
    (sets : ∀ first, stack.caches.head? = some first → CoinsCall.Sets cache.pindexTip first) {written : Bool}
    (run : stack.batchWrite cache.cacheCoins cache.pindexTip written = some after) :
    after.Fits Good Kept Known ∧
      after.views = (view stack.base stack.caches).under cache :: stack.views.tail := by
  obtain ⟨caches, base⟩ := stack
  cases caches with
  | nil =>
      rw [batchWrite] at run
      cases written with
      | false => contradiction
      | true =>
          cases run
          refine ⟨⟨lawful.good cache.pindexTip fits.base content.kept, fun other member => nomatch member⟩, ?_⟩
          have shown : view (BackingView.batchWrite base cache.cacheCoins cache.pindexTip) [] =
              (view base []).under cache := by
            apply FlatCoins.ext
            · funext txid
              exact lawful.coins cache.pindexTip txid fits.base content.kept
            · exact lawful.best cache.pindexTip fits.base content.known
          rw [views, views, viewsOf, viewsOf, shown]
          rfl
  | cons first below =>
      cases run
      have firstFits := fits.caches first List.mem_cons_self
      refine ⟨⟨fits.base, ?_⟩, ?_⟩
      · intro other member
        cases List.mem_cons.mp member with
        | inl same => exact same ▸ ⟨content.kept.applyBatch firstFits.kept, content.known⟩
        | inr later => exact fits.caches other (List.mem_cons_of_mem first later)
      · rw [views, views, viewsOf, viewsOf, view, view, FlatCoins.under_applyBatch (sets first rfl)]
        rfl

theorem batchWrite_isSome (mapCoins : CoinsMap) (pindex : Option UInt256) (written : Bool) :
    (stack.batchWrite mapCoins pindex written).isSome = (written || 1 < stack.views.length) := by
  obtain ⟨caches, base⟩ := stack
  cases caches with
  | nil => cases written <;> rfl
  | cons first below =>
      obtain ⟨lower, shape⟩ := viewsOf_eq base below
      cases written <;> simp [batchWrite, views, viewsOf, shape]

theorem flush_spec (lawful : BackingView.Lawful Good Kept Known) (fits : lower.Fits Good Kept Known)
    (content : cache.Fits Kept Known)
    (sets : ∀ first, lower.caches.head? = some first → CoinsCall.Sets cache.pindexTip first) {written : Bool}
    {result : CoinsResult} (run : flush cache lower written = (result, after)) :
    after.Fits Good Kept Known ∧
      after.views = (view lower.base lower.caches).under cache ::
        ((view lower.base lower.caches).under cache).flushInto (.flush written) lower.views ∧
      result = .done (written || 1 < lower.views.length) := by
  have outcome : (lower.batchWrite cache.cacheCoins cache.pindexTip written).isSome = _ :=
    batchWrite_isSome cache.cacheCoins cache.pindexTip written
  have shape : lower.views = view lower.base lower.caches :: lower.views.tail := by
    obtain ⟨rest, shape⟩ := viewsOf_eq lower.base lower.caches
    rw [views, shape]
    rfl
  rw [flush] at run
  cases wrote : lower.batchWrite cache.cacheCoins cache.pindexTip written with
  | none =>
      rw [wrote] at run outcome
      cases run
      have fails : written = false ∧ ¬ 1 < lower.views.length := by
        simpa using outcome.symm
      have single : lower.views.tail = [] := by
        apply List.eq_nil_of_length_eq_zero
        have := fails.2
        rw [List.length_tail]
        omega
      refine ⟨fits.cons content, ?_, by rw [← outcome]; rfl⟩
      rw [shape, single, fails.1]
      show view lower.base (cache :: lower.caches) :: viewsOf lower.base lower.caches = _
      rw [show viewsOf lower.base lower.caches = lower.views from rfl, shape, single]
      rfl
  | some next =>
      rw [wrote] at run outcome
      cases run
      obtain ⟨nextFits, nextViews⟩ := batchWrite_spec lawful fits content sets wrote
      have emptied : CCoinsViewCache.Fits Kept Known { cache with cacheCoins := ∅ } :=
        ⟨fun txid coins found => by simp at found, content.known⟩
      have shown : view next.base next.caches = (view lower.base lower.caches).under cache := by
        obtain ⟨rest, nextShape⟩ := viewsOf_eq next.base next.caches
        rw [views, nextShape] at nextViews
        exact (List.cons.inj nextViews).1
      refine ⟨nextFits.cons emptied, ?_, by rw [← outcome]; rfl⟩
      show (view next.base next.caches).under { cache with cacheCoins := ∅ } :: next.views = _
      rw [shown, FlatCoins.under_flushed, nextViews]
      congr 1
      rw [shape, List.tail_cons]
      cases tail : lower.views.tail with
      | nil =>
          have wroteBase : written = true := by
            rw [shape, tail] at outcome
            simpa using outcome.symm
          rw [wroteBase]
          rfl
      | cons second rest => rfl

/-! ## One call and whole runs -/

/-- A step of the stack is a step of the maps. -/
structure Refines (Good : View → Prop) (Kept : CCoins → Prop) (Known : UInt256 → Prop) (depth : Nat)
    (request : CoinsCall) (before : CoinsStack View) (result : CoinsResult) (after : CoinsStack View) : Prop where
  fits : after.Fits Good Kept Known
  views : after.views = FlatCoins.callAt request depth before.views
  result : FlatCoins.AllowsAt request result depth before.views

theorem views_cons (base : View) (cache : CCoinsViewCache) (below : List CCoinsViewCache) :
    views ⟨cache :: below, base⟩ = (view base below).under cache :: views ⟨below, base⟩ := rfl

theorem call_refines (lawful : BackingView.Lawful Good Kept Known) (lowerFits : lower.Fits Good Kept Known)
    (cacheFits : cache.Fits Kept Known) {request : CoinsCall}
    (permitted : request.Permitted Kept Known cache lower.caches) {result : CoinsResult}
    (run : call cache lower request = (result, after)) :
    Refines Good Kept Known 0 request ⟨cache :: lower.caches, lower.base⟩ result after := by
  have fits := lowerFits.cons cacheFits
  cases request with
  | getCoins txid =>
      cases read : CCoinsViewCache.getCoins lower.base txid (cache :: lower.caches) with
      | mk found caches =>
          simp only [call, read, Prod.mk.injEq] at run
          obtain ⟨rfl, rfl⟩ := run
          obtain ⟨shown, _, reads⟩ := CCoinsViewCache.getCoins_reads lawful fits.base fits.caches read
          exact ⟨⟨fits.base, reads.fits⟩, reads.views, shown⟩
  | haveCoins txid =>
      cases read : CCoinsViewCache.getCoins lower.base txid (cache :: lower.caches) with
      | mk found caches =>
          simp only [call, read, Prod.mk.injEq] at run
          obtain ⟨rfl, rfl⟩ := run
          obtain ⟨shown, _, reads⟩ := CCoinsViewCache.getCoins_reads lawful fits.base fits.caches read
          refine ⟨⟨fits.base, reads.fits⟩, reads.views, ?_⟩
          intro present
          have present : ((view lower.base (cache :: lower.caches)).coins txid).isSome = true := present
          rw [← shown] at present
          cases found with
          | none => contradiction
          | some coins => rfl
  | setCoins txid coins =>
      cases run
      refine ⟨lowerFits.cons (cacheFits.remember permitted txid), ?_, rfl⟩
      rw [views_cons, FlatCoins.under_remember]
      rfl
  | getBestBlock =>
      cases read : CCoinsViewCache.getBestBlock lower.base (cache :: lower.caches) with
      | mk pindex caches =>
          simp only [call, read, Prod.mk.injEq] at run
          obtain ⟨rfl, rfl⟩ := run
          obtain ⟨shown, _, reads⟩ := CCoinsViewCache.getBestBlock_reads lawful fits.base fits.caches read
          exact ⟨⟨fits.base, reads.fits⟩, reads.views, shown⟩
  | setBestBlock pindex =>
      cases run
      obtain ⟨known, sets⟩ := permitted
      refine ⟨lowerFits.cons ⟨cacheFits.kept, known⟩, ?_, rfl⟩
      have shown : (view lower.base lower.caches).under { cache with pindexTip := pindex } =
          ((view lower.base lower.caches).under cache).write (.setBestBlock pindex) := by
        apply FlatCoins.ext
        · rfl
        · cases pindex with
          | none => simp [FlatCoins.under, FlatCoins.write, sets rfl]
          | some pindex => rfl
      rw [views_cons, shown]
      rfl
  | batchWrite mapCoins pindex =>
      cases run
      obtain ⟨content, sets⟩ := permitted
      refine ⟨lowerFits.cons ⟨content.kept.applyBatch cacheFits.kept, content.known⟩, ?_, rfl⟩
      rw [views_cons, FlatCoins.under_applyBatch sets]
      rfl
  | flush written =>
      obtain ⟨afterFits, afterViews, outcome⟩ := flush_spec lawful lowerFits cacheFits permitted run
      exact ⟨afterFits, afterViews, by rw [outcome]; rfl⟩

theorem callAt_refines (lawful : BackingView.Lawful Good Kept Known) {base : View} {depth : Nat}
    {caches : List CCoinsViewCache} (fits : (CoinsStack.mk caches base).Fits Good Kept Known) {request : CoinsCall}
    (allowed : request.Allowed Kept Known depth caches) {result : CoinsResult}
    (run : callAt request base depth caches = (result, after)) :
    Refines Good Kept Known depth request ⟨caches, base⟩ result after := by
  induction depth generalizing caches result after with
  | zero =>
      cases caches with
      | nil => exact False.elim allowed
      | cons cache below =>
          have below : (CoinsStack.mk below base).Fits Good Kept Known :=
            ⟨fits.base, fun other member => fits.caches other (List.mem_cons_of_mem cache member)⟩
          exact call_refines lawful below (fits.caches cache List.mem_cons_self) allowed run
  | succ depth ih =>
      cases caches with
      | nil => exact False.elim allowed
      | cons cache below =>
          obtain ⟨unshadowed, allowed⟩ := allowed
          have belowFits : (CoinsStack.mk below base).Fits Good Kept Known :=
            ⟨fits.base, fun other member => fits.caches other (List.mem_cons_of_mem cache member)⟩
          cases call : callAt request base depth below with
          | mk answer lower =>
              simp only [callAt, call, Prod.mk.injEq] at run
              obtain ⟨rfl, rfl⟩ := run
              obtain ⟨lowerFits, lowerViews, allows⟩ := ih belowFits allowed call
              refine ⟨lowerFits.cons (fits.caches cache List.mem_cons_self), ?_, allows⟩
              have shown : view lower.base lower.caches = (view base below).write request := by
                obtain ⟨rest, shape⟩ := viewsOf_eq base below
                obtain ⟨lowerRest, lowerShape⟩ := viewsOf_eq lower.base lower.caches
                rw [views, views, shape, lowerShape] at lowerViews
                cases depth with
                | zero => exact (List.cons.inj lowerViews).1
                | succ depth => exact (List.cons.inj lowerViews).1
              rw [views_cons, views_cons, shown, FlatCoins.under_write unshadowed, FlatCoins.callAt]
              exact congrArg (_ :: ·) lowerViews

theorem callAt_failed {base : View} {depth : Nat} {caches : List CCoinsViewCache} {request : CoinsCall}
    (run : callAt request base depth caches = (.done false, after)) : after = ⟨caches, base⟩ := by
  induction depth generalizing caches after with
  | zero =>
      cases caches with
      | nil => cases run; rfl
      | cons cache below =>
          cases request with
          | flush written =>
              simp only [callAt, call, flush] at run
              split at run
              · cases run
              · cases run
                rfl
          | getCoins | haveCoins | setCoins | getBestBlock | setBestBlock | batchWrite => cases run
  | succ depth ih =>
      cases caches with
      | nil => cases run; rfl
      | cons cache below =>
          cases call : callAt request base depth below with
          | mk answer lower =>
              simp only [callAt, call, Prod.mk.injEq] at run
              obtain ⟨rfl, rfl⟩ := run
              rw [ih call]

/-- Every run of calls on a stack gives what one map for each view gives: a
pruned entry counts as absent, and HaveCoins may report it. -/
theorem run_refines_flat_maps (lawful : BackingView.Lawful Good Kept Known) (stack : CoinsStack View)
    (fits : stack.Fits Good Kept Known) (requests : List (Nat × CoinsCall))
    (allowed : AllowedRun Kept Known stack requests) :
    FlatCoins.AllowsRun stack.views requests (stack.run requests).1 ∧
      (stack.run requests).2.views =
        requests.foldl (fun flats request => FlatCoins.callAt request.2 request.1 flats) stack.views ∧
      ∀ (reached : CoinsStack View) request after,
        reached.step request = (.done false, after) → after = reached := by
  refine ⟨?_, ?_, ?_⟩
  · induction requests generalizing stack with
    | nil => exact True.intro
    | cons request requests ih =>
        obtain ⟨first, rest⟩ := allowed
        have refines : Refines Good Kept Known _ request.2 _ (stack.step request).1 (stack.step request).2 :=
          callAt_refines lawful fits first rfl
        refine ⟨refines.result, ?_⟩
        rw [← show (stack.step request).2.views = _ from refines.views]
        exact ih (stack.step request).2 refines.fits rest
  · induction requests generalizing stack with
    | nil => rfl
    | cons request requests ih =>
        obtain ⟨first, rest⟩ := allowed
        have refines : Refines Good Kept Known _ request.2 _ (stack.step request).1 (stack.step request).2 :=
          callAt_refines lawful fits first rfl
        rw [List.foldl_cons, ← show (stack.step request).2.views = _ from refines.views]
        exact ih (stack.step request).2 refines.fits rest
  · intro reached request after run
    exact callAt_failed run

end CoinsStack

/-! ## The coin database as a base view -/

namespace CCoinsViewDB

variable [PubKeys] {mapBlockIndex : BlockMap}

/-- An entry that the disk format expresses. -/
def Kept (coins : CCoins) : Prop :=
  coins.Sized ∧ coins.Expressible

/-- Every record was written by BatchWriteCoins. -/
def Good (db : CCoinsViewDB mapBlockIndex) : Prop :=
  ∀ (txid : UInt256) (record : Bytes), db.coins[txid]? = some record →
    ∃ coins, Kept coins ∧ batchWriteCoins coins = some record

theorem read_written {coins : CCoins} {record : Bytes} (kept : Kept coins)
    (written : batchWriteCoins coins = some record) :
    ∃ stored, (CCoins.unserialize record).map Prod.fst = some stored ∧ Kept stored ∧ stored.entry = coins.entry := by
  obtain ⟨sized, expressible⟩ := kept
  rw [batchWriteCoins] at written
  split at written
  · contradiction
  · rename_i unspent
    cases written
    refine ⟨coins.reloaded, ?_, expressible.reloaded sized, expressible.entry_reloaded sized⟩
    rw [(sized.reads_reloaded (by simpa using unspent)).whole]
    rfl

theorem entry_of_not_written {coins : CCoins} (erased : batchWriteCoins coins = none) : coins.entry = none := by
  rw [batchWriteCoins] at erased
  split at erased
  · rename_i pruned
    exact CCoins.entry_eq_none_iff.mpr pruned
  · contradiction

theorem lawful (mapBlockIndex : BlockMap) : @BackingView.Lawful (CCoinsViewDB mapBlockIndex) _ Good Kept
    (fun pindex => (mapBlockIndex pindex).isSome = true) where
  kept := by
    intro db txid coins good found
    obtain ⟨record, present, read⟩ := Option.bind_eq_some_iff.mp found
    obtain ⟨original, kept, written⟩ := good txid record present
    obtain ⟨stored, again, storedKept, _⟩ := read_written kept written
    cases again.symm.trans read
    exact storedKept
  known := by
    intro db pindex _ found
    exact (Option.filter_eq_some_iff.mp found).2
  good := by
    intro db mapCoins pindex good kept txid record found
    have found : (applyBatch batchWriteCoins mapCoins db.coins)[txid]? = some record := found
    rw [getElem?_applyBatch] at found
    cases changed : mapCoins[txid]? with
    | none =>
        rw [changed] at found
        exact good txid record found
    | some coins =>
        rw [changed] at found
        exact ⟨coins, kept txid coins changed, found⟩
  coins := by
    intro db mapCoins pindex txid good kept
    show (((applyBatch batchWriteCoins mapCoins db.coins)[txid]?).bind _).bind _ = _
    rw [getElem?_applyBatch]
    cases changed : mapCoins[txid]? with
    | none => rfl
    | some coins =>
        cases written : batchWriteCoins coins with
        | none =>
            simp only [written, Option.bind_none]
            exact (entry_of_not_written written).symm
        | some record =>
            obtain ⟨stored, read, _, entry⟩ := read_written (kept txid coins changed) written
            simp only [written, Option.bind_some, read, entry]
  best := by
    intro db mapCoins pindex _ known
    cases pindex with
    | none => rfl
    | some pindex =>
        have present := known pindex rfl
        show Option.filter _ (some pindex) = some pindex
        simp [Option.filter_some, present]

end CCoinsViewDB

namespace Sample

def cacheStack (count : Nat) : CoinsStack (CCoinsViewDB blocks) :=
  ⟨List.replicate count ⟨∅, none⟩, ⟨∅, none⟩⟩

/-- Two caches are filled, emptied into each other and into the database, and read. -/
def requests : List (Nat × CoinsCall) :=
  [(0, .setCoins 0x77 (partlySpent 1)), (0, .setBestBlock (some 5)), (0, .flush true), (1, .flush false),
    (1, .flush true), (0, .getCoins 0x77)]

theorem cacheStack_fits (count : Nat) : (cacheStack count).Fits CCoinsViewDB.Good CCoinsViewDB.Kept
    (fun pindex => (blocks pindex).isSome = true) where
  base txid record found := by simp [cacheStack] at found
  caches cache member := by
    rw [(List.mem_replicate.mp member).2]
    exact ⟨fun txid coins found => by simp at found, fun pindex found => nomatch found⟩

theorem requests_allowed : CoinsStack.AllowedRun CCoinsViewDB.Kept (fun pindex => (blocks pindex).isSome = true)
    (cacheStack 2) requests := by
  have noNull : ∀ lower, CoinsCall.Sets (some 5) lower := fun lower null => nomatch null
  refine ⟨⟨partlySpent_sized 1, partlySpent_expressible⟩, ⟨fun known _ => rfl, noNull _⟩,
    fun lower _ => noNull lower, ⟨trivial, fun lower _ => noNull lower⟩, ⟨trivial, fun lower _ => noNull lower⟩,
    trivial, trivial⟩

end Sample

open Sample

theorem CoinsStack.run_refines_flat_maps_sample :
    FlatCoins.AllowsRun (cacheStack 2).views requests ((cacheStack 2).run requests).1 ∧
      ((cacheStack 2).run requests).2.views =
        requests.foldl (fun flats request => FlatCoins.callAt request.2 request.1 flats) (cacheStack 2).views ∧
      ∀ (reached : CoinsStack (CCoinsViewDB blocks)) request after,
        reached.step request = (.done false, after) → after = reached :=
  CoinsStack.run_refines_flat_maps (CCoinsViewDB.lawful blocks) (cacheStack 2) (cacheStack_fits 2) requests
    requests_allowed

/-- HaveCoins reports a fully spent entry, which the map does not have, until the
cache has been flushed. A best block is lost when a cache that has not been asked
for one is flushed. -/
theorem CoinsStack.run_not_flat :
    ((cacheStack 1).run [(0, .setCoins 0x77 CCoins.empty), (0, .haveCoins 0x77), (0, .flush true),
        (0, .haveCoins 0x77)]).1 = [.done true, .have true, .done true, .have false] ∧
      ((FlatCoins.mk (fun _ => none) none).write (.setCoins 0x77 CCoins.empty)).coins 0x77 = none ∧
      ((cacheStack 2).run [(1, .setBestBlock (some 5)), (1, .getBestBlock), (0, .flush true),
        (1, .getBestBlock)]).1 = [.done true, .best (some 5), .done true, .best none] := by
  refine ⟨by decide, rfl, by decide⟩

end BitCrystal
