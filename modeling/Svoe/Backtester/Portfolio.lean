import Svoe.Common.Frame
import Svoe.Features.Generator
import Mathlib.Data.Finmap
import Mathlib.Tactic.Ring

/-!
# Wallets and portfolios

A `Wallet` keeps a free balance of one asset and the amounts locked for orders.  `locked` is a
dictionary, so an order has at most one amount in it.

* `totalBalance_lock`, `totalBalance_unlock` : locking keeps the total, unlocking takes the locked
  amount out of it.
* `mem_wallets_of_getWallet` : the wallet of an asset is one of the wallets.
-/

namespace Svoe

namespace Backtester

/-! ### Instruments -/

/-- `AssetInstrument`. -/
structure AssetInstrument where
  exchange : String
  instrumentType : String
  asset : String
  deriving DecidableEq, Repr

/-- `repr`, for fields without quotes. -/
def AssetInstrument.text (a : AssetInstrument) : String :=
  "AssetInstrument(exchange='" ++ a.exchange ++ "', instrument_type='" ++ a.instrumentType ++
    "', asset='" ++ a.asset ++ "')"

/-- `_parse_symbol`. -/
def parseSymbol (symbol : String) : Except PyError (String × String) :=
  match (symbol.toList.splitOn '-').map String.ofList with
  | base :: quote :: _ => .ok (base, quote)
  | _ => .error .index

/-- `_compose_symbol`. -/
def composeSymbol (base quote : String) : String := base ++ "-" ++ quote

/-- `Instrument.to_asset_instruments`: base and quote. -/
def toAssetInstruments (instrument : Instrument) :
    Except PyError (AssetInstrument × AssetInstrument) :=
  (parseSymbol instrument.symbol).map fun (base, quote) =>
    (⟨instrument.exchange, instrument.instrumentType, base⟩,
      ⟨instrument.exchange, instrument.instrumentType, quote⟩)

/-- `Instrument.from_asset_instruments`. -/
def fromAssetInstruments (base quote : AssetInstrument) : Except PyError Instrument :=
  if base.exchange ≠ quote.exchange then
    .error (.value "instruments should be of same exchange")
  else if base.instrumentType ≠ quote.instrumentType then
    .error (.value "instruments should be of same instrument_type")
  else .ok ⟨base.exchange, base.instrumentType, composeSymbol base.asset quote.asset⟩

/-! ### Wallets -/

/-- `Wallet`; the order ids are numbers. -/
structure Wallet where
  assetInstrument : AssetInstrument
  balance : ℚ
  locked : Finmap fun _ : ℕ => ℚ

namespace Wallet

variable (w : Wallet) (orderId : ℕ) (qty : ℚ)

/-- `lock_from_balance`. -/
def lockFromBalance : Except PyError Wallet :=
  if qty > w.balance then
    .error (.value s!"Can not lock {orderId}: qty {qty} is larger then balance {w.balance}")
  else if orderId ∈ w.locked then .error (.value s!"Can not lock {orderId} twice")
  else .ok { w with locked := w.locked.insert orderId qty, balance := w.balance - qty }

/-- `unlock`: the wallet after it, and the amount. -/
def unlock : Except PyError (Wallet × ℚ) :=
  match w.locked.lookup orderId with
  | none => .error (.value s!"Can not unlock {orderId}: does not exist")
  | some qty => .ok ({ w with locked := w.locked.erase orderId }, qty)

/-- `deposit`. -/
def deposit : Wallet := { w with balance := w.balance + qty }

/-- `locked_balance`. -/
def lockedBalance : ℚ := (w.locked.entries.map Sigma.snd).sum

/-- `total_balance`: includes locked. -/
def totalBalance : ℚ := w.balance + w.lockedBalance

variable {w orderId qty} {w' : Wallet}

theorem lockFromBalance_eq_ok_iff :
    w.lockFromBalance orderId qty = .ok w' ↔
      qty ≤ w.balance ∧ orderId ∉ w.locked ∧
        w' = { w with locked := w.locked.insert orderId qty, balance := w.balance - qty } := by
  unfold lockFromBalance
  split_ifs with hqty hmem
  · exact iff_of_false nofun fun h => h.1.not_gt hqty
  · exact iff_of_false nofun fun h => h.2.1 hmem
  · simp [not_lt.1 hqty, hmem, eq_comm]

theorem unlock_eq_ok_iff :
    w.unlock orderId = .ok (w', qty) ↔
      w.locked.lookup orderId = some qty ∧ w' = { w with locked := w.locked.erase orderId } := by
  unfold unlock
  cases w.locked.lookup orderId with
  | none => exact iff_of_false nofun nofun
  | some q => simp [and_comm, eq_comm]

/-- Locking moves an amount within the wallet. -/
theorem totalBalance_lock (h : w.lockFromBalance orderId qty = .ok w') :
    w'.totalBalance = w.totalBalance := by
  obtain ⟨-, hmem, rfl⟩ := lockFromBalance_eq_ok_iff.1 h
  simp only [totalBalance, lockedBalance, Finmap.entries_insert_of_notMem hmem, Multiset.map_cons,
    Multiset.sum_cons]
  ring

/-- Unlocking takes the amount out of the wallet. -/
theorem totalBalance_unlock (h : w.unlock orderId = .ok (w', qty)) :
    w'.totalBalance = w.totalBalance - qty := by
  obtain ⟨hlookup, rfl⟩ := unlock_eq_ok_iff.1 h
  have hinsert : (w.locked.erase orderId).insert orderId qty = w.locked := by
    refine Finmap.ext_lookup fun id => ?_
    by_cases hid : id = orderId
    · subst hid; rw [Finmap.lookup_insert, hlookup]
    · rw [Finmap.lookup_insert_of_ne _ hid, Finmap.lookup_erase_ne hid]
  have hmem : orderId ∉ w.locked.erase orderId := fun hm => (Finmap.mem_erase.1 hm).1 rfl
  simp only [totalBalance, lockedBalance]
  conv_rhs => rw [← hinsert, Finmap.entries_insert_of_notMem hmem, Multiset.map_cons,
    Multiset.sum_cons]
  ring

theorem totalBalance_deposit : (w.deposit qty).totalBalance = w.totalBalance + qty := by
  simp only [deposit, totalBalance, lockedBalance]
  ring

end Wallet

/-! ### Portfolios -/

/-- `Portfolio`. -/
structure Portfolio where
  wallets : List Wallet
  quote : AssetInstrument

namespace Portfolio

variable (p : Portfolio) (a : AssetInstrument)

/-- `get_wallet`. -/
def getWallet : Except PyError Wallet :=
  match p.wallets.filter fun w => w.assetInstrument = a with
  | [] => .error (.value ("Can not find wallet for " ++ a.text))
  | [w] => .ok w
  | _ :: _ :: _ => .error (.value ("Duplicate wallets for " ++ a.text))

/-- Change the wallets of an asset. -/
def modifyWallet (f : Wallet → Wallet) : Portfolio :=
  { p with wallets := p.wallets.map fun w => if w.assetInstrument = a then f w else w }

variable {p a} {w : Wallet}

/-- The wallet of an asset, and the wallets of other assets around it. -/
theorem exists_append_of_getWallet (h : p.getWallet a = .ok w) :
    ∃ before behind, p.wallets = before ++ w :: behind ∧ w.assetInstrument = a ∧
      ∀ w' ∈ before ++ behind, w'.assetInstrument ≠ a := by
  unfold getWallet at h
  rcases hf : p.wallets.filter fun w => w.assetInstrument = a with _ | ⟨w₁, _ | ⟨w₂, ws⟩⟩
  · rw [hf] at h; cases h
  · rw [hf] at h
    obtain rfl := Except.ok.inj h
    obtain ⟨before, behind, hwallets, hbefore, ha, hbehind⟩ := List.filter_eq_cons_iff.1 hf
    refine ⟨before, behind, hwallets, of_decide_eq_true ha, fun w' hw' => ?_⟩
    rcases List.mem_append.1 hw' with hw' | hw'
    · simpa using hbefore w' hw'
    · simpa using List.filter_eq_nil_iff.1 hbehind w' hw'
  · rw [hf] at h; cases h

theorem mem_wallets_of_getWallet (h : p.getWallet a = .ok w) :
    w ∈ p.wallets ∧ w.assetInstrument = a := by
  obtain ⟨before, behind, hwallets, ha, -⟩ := exists_append_of_getWallet h
  exact ⟨by rw [hwallets]; simp, ha⟩

/-- There is no other wallet of the asset. -/
theorem eq_of_getWallet (h : p.getWallet a = .ok w) {w' : Wallet} (hw' : w' ∈ p.wallets)
    (ha : w'.assetInstrument = a) : w' = w := by
  obtain ⟨before, behind, hwallets, -, hother⟩ := exists_append_of_getWallet h
  rw [hwallets, List.mem_append, List.mem_cons] at hw'
  rcases hw' with hw' | rfl | hw'
  · exact absurd ha (hother w' (List.mem_append_left _ hw'))
  · rfl
  · exact absurd ha (hother w' (List.mem_append_right _ hw'))

/-- To replace the wallet of an asset is to change it. -/
theorem modifyWallet_const {f : Wallet → Wallet} (h : p.getWallet a = .ok w) :
    (p.modifyWallet a fun _ => f w) = p.modifyWallet a f := by
  have hmap : p.wallets.map (fun w' => if w'.assetInstrument = a then f w else w') =
      p.wallets.map fun w' => if w'.assetInstrument = a then f w' else w' := by
    refine List.map_congr_left fun w' hw' => ?_
    split_ifs with ha
    · rw [eq_of_getWallet h hw' ha]
    · rfl
  simp only [modifyWallet, hmap]

/-- Looking up a wallet after the wallets of an asset changed. -/
theorem getWallet_modifyWallet {a' : AssetInstrument} {f : Wallet → Wallet}
    (hf : ∀ w, (f w).assetInstrument = w.assetInstrument) :
    (p.modifyWallet a f).getWallet a' =
      (p.getWallet a').map fun w => if w.assetInstrument = a then f w else w := by
  have hasset : ∀ w : Wallet,
      (if w.assetInstrument = a then f w else w).assetInstrument = w.assetInstrument := by
    intro w
    split_ifs
    · exact hf w
    · rfl
  have hfilter : (p.modifyWallet a f).wallets.filter (fun w => w.assetInstrument = a') =
      (p.wallets.filter fun w => w.assetInstrument = a').map
        fun w => if w.assetInstrument = a then f w else w := by
    simp only [modifyWallet, List.filter_map, Function.comp_def, hasset]
  rw [getWallet, hfilter, getWallet]
  generalize p.wallets.filter (fun w => w.assetInstrument = a') = ws
  rcases ws with _ | ⟨w₁, _ | ⟨w₂, ws⟩⟩ <;> rfl

/-- The wallets of other assets stay. -/
theorem getWallet_modifyWallet_of_ne {a' : AssetInstrument} {f : Wallet → Wallet} (hne : a ≠ a')
    (hf : ∀ w, (f w).assetInstrument = w.assetInstrument) :
    (p.modifyWallet a f).getWallet a' = p.getWallet a' := by
  rw [getWallet_modifyWallet hf]
  cases hw : p.getWallet a' with
  | error e => rfl
  | ok w =>
    have ha : w.assetInstrument ≠ a := by
      rw [(mem_wallets_of_getWallet hw).2]
      exact hne.symm
    exact congrArg Except.ok (if_neg ha)

/-- The wallets of a changed portfolio. -/
theorem mem_modifyWallet {f : Wallet → Wallet} {w' : Wallet} :
    w' ∈ (p.modifyWallet a f).wallets ↔
      ∃ w ∈ p.wallets, (if w.assetInstrument = a then f w else w) = w' := List.mem_map

theorem assets_modifyWallet {f : Wallet → Wallet}
    (hf : ∀ w, (f w).assetInstrument = w.assetInstrument) :
    (p.modifyWallet a f).wallets.map Wallet.assetInstrument =
      p.wallets.map Wallet.assetInstrument := by
  rw [modifyWallet, List.map_map]
  refine List.map_congr_left fun w _ => ?_
  simp only [Function.comp_apply]
  split_ifs
  · exact hf w
  · rfl

/-- The wallet of an asset, where there is one for each. -/
theorem getWallet_eq_ok (hnodup : (p.wallets.map Wallet.assetInstrument).Nodup)
    (hw : w ∈ p.wallets) : p.getWallet w.assetInstrument = .ok w := by
  obtain ⟨before, behind, hwallets⟩ := List.append_of_mem hw
  rw [hwallets, List.map_append, List.map_cons, List.nodup_append, List.nodup_cons] at hnodup
  obtain ⟨-, ⟨hbehind, -⟩, hbefore⟩ := hnodup
  have hnil : ∀ ws : List Wallet, (∀ w' ∈ ws, w'.assetInstrument ≠ w.assetInstrument) →
      ws.filter (fun w' => w'.assetInstrument = w.assetInstrument) = [] := fun ws h =>
    List.filter_eq_nil_iff.2 fun w' hw' => by simpa using h w' hw'
  have hfilter : p.wallets.filter (fun w' => w'.assetInstrument = w.assetInstrument) = [w] := by
    rw [hwallets, List.filter_append, hnil before, List.nil_append, List.filter_cons_of_pos,
      hnil behind]
    · exact fun w' hw' h => hbehind (List.mem_map.2 ⟨w', hw', h⟩)
    · exact decide_eq_true rfl
    · exact fun w' hw' h => hbefore _ (List.mem_map.2 ⟨w', hw', h⟩) _ List.mem_cons_self rfl
  rw [getWallet, hfilter]

end Portfolio

end Backtester

end Svoe
