import Wownero.Refresh
/-!
# What a scan leaves alone

Scanning a block changes what the wallet holds and what it knows of its own transactions.  Its
keys, its heights and how it asks a node stay as they are.
-/

namespace Wownero.WalletState

/-- The wallet without its money and without the hashes it gathers: what it knows of the chain, and
    how it asks for more. -/
def frame (w : WalletState) : WalletState :=
  { w with transfers := [], byKeyImage := [], byPublicKey := [], sent := [], rings := [], fill := [] }

/-- The wallet without its money. -/
def chainPart (w : WalletState) : WalletState :=
  { w with transfers := [], byKeyImage := [], byPublicKey := [], sent := [], rings := [] }

theorem frame_of_chainPart {w w' : WalletState} (h : w.chainPart = w'.chainPart) : w.frame = w'.frame :=
  (congrArg (fun v : WalletState => { v with fill := [] }) h :)

theorem fill_of_chainPart {w w' : WalletState} (h : w.chainPart = w'.chainPart) : w.fill = w'.fill :=
  (congrArg (fun v : WalletState => v.fill) h :)

theorem hashes_of_frame {w w' : WalletState} (h : w.frame = w'.frame) : w.hashes = w'.hashes :=
  (congrArg (fun v : WalletState => v.hashes) h :)

theorem startHeight_of_frame {w w' : WalletState} (h : w.frame = w'.frame) :
    w.startHeight = w'.startHeight :=
  (congrArg (fun v : WalletState => v.startHeight) h :)

theorem chainPart_modifyTransfer (w : WalletState) (i : Nat) (f : Transfer → Transfer) :
    (w.modifyTransfer i f).chainPart = w.chainPart := rfl

theorem chainPart_setInputSpent (w : WalletState) (spent : Bool) (k : KeyImage) :
    (setInputSpent spent w k).chainPart = w.chainPart := by
  unfold setInputSpent
  split
  · rfl
  · exact chainPart_modifyTransfer _ _ _

theorem foldl_kept {α β : Type} {π : WalletState → β} {f : WalletState → α → WalletState}
    (h : ∀ w a, π (f w a) = π w) (l : List α) (w : WalletState) : π (l.foldl f w) = π w := by
  induction l generalizing w with
  | nil => rfl
  | cons a l ih => rw [List.foldl_cons, ih, h]

theorem chainPart_spendPendingInputs (w : WalletState) : w.spendPendingInputs.chainPart = w.chainPart :=
  foldl_kept (fun w k => chainPart_setInputSpent w true k) _ w

theorem chainPart_spendInputs (w : WalletState) (height : Nat) (images : List KeyImage) :
    (w.spendInputs height images).chainPart = w.chainPart := by
  apply foldl_kept
  intro w k
  split
  · rfl
  · exact chainPart_modifyTransfer _ _ _

theorem chainPart_addTransfer (w : WalletState) (t : Transfer) : (w.addTransfer t).2.chainPart = w.chainPart := by
  unfold addTransfer
  split
  · split
    · rfl
    · exact chainPart_modifyTransfer _ _ _
  · rfl

theorem chainPart_spendSeen (w : WalletState) (seen : SeenSpend) : (w.spendSeen seen).chainPart = w.chainPart := by
  unfold spendSeen
  simp only
  split <;> rfl

variable {C : Crypto}

theorem chainPart_receiveOutputs (height timestamp : Nat) (tx : Transaction) (txid : Hash256)
    (indices : List Nat) (account : Option UInt32) (found : List Received) (w : WalletState)
    (received : Nat) (summary : RefreshSummary) :
    (receiveOutputs C height timestamp tx txid indices account found w received summary).1.1.chainPart
      = w.chainPart := by
  induction found generalizing w received summary with
  | nil => rfl
  | cons r found ih =>
      have hadd := chainPart_addTransfer w (transferOf C w height timestamp tx txid indices r)
      rw [receiveOutputs]
      split
      · rename_i w' heq
        rw [heq] at hadd
        rw [ih, ← hadd]
      · rename_i receipt w' _ heq
        rw [heq] at hadd
        rw [ih, ← hadd]

theorem chainPart_processTransaction (w : WalletState) (height timestamp : Nat) (tx : Transaction)
    (txid : Hash256) (indices : List Nat) (summary : RefreshSummary) :
    (w.processTransaction C height timestamp tx txid indices summary).1.chainPart = w.chainPart := by
  unfold processTransaction
  simp only
  split
  · rw [chainPart_receiveOutputs, chainPart_spendInputs]
  · rw [chainPart_spendSeen]
    exact (chainPart_receiveOutputs ..).trans (chainPart_spendInputs ..)

theorem chainPart_processTransactions (bundle : BlockBundle) (height timestamp slot : Nat)
    (txs : List (Blob × Hash256)) (w : WalletState) (summary : RefreshSummary) :
    (processTransactions C bundle height timestamp slot txs w summary).2.chainPart = w.chainPart := by
  induction txs generalizing slot w summary with
  | nil => rfl
  | cons p txs ih =>
      rw [processTransactions]
      split
      · rfl
      · simp only
        rw [ih, chainPart_processTransaction]

theorem chainPart_detach (w : WalletState) (height : Nat) :
    (w.detach height).chainPart = { w.chainPart with hashes := w.hashes.take (height - w.startHeight) } := by
  unfold detach detachSent
  exact chainPart_spendPendingInputs _

theorem frame_processTransaction (w : WalletState) (height timestamp : Nat) (tx : Transaction)
    (txid : Hash256) (indices : List Nat) (summary : RefreshSummary) :
    (w.processTransaction C height timestamp tx txid indices summary).1.frame = w.frame :=
  frame_of_chainPart (chainPart_processTransaction ..)

theorem frame_processTransactions (bundle : BlockBundle) (height timestamp slot : Nat)
    (txs : List (Blob × Hash256)) (w : WalletState) (summary : RefreshSummary) :
    (processTransactions C bundle height timestamp slot txs w summary).2.frame = w.frame :=
  frame_of_chainPart (chainPart_processTransactions ..)

theorem frame_detach (w : WalletState) (height : Nat) :
    (w.detach height).frame = { w.frame with hashes := w.hashes.take (height - w.startHeight) } :=
  (congrArg (fun v : WalletState => { v with fill := [] }) (w.chainPart_detach height) :)

end Wownero.WalletState
