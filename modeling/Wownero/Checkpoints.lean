import Wownero.Consensus
/-!
# Checkpoints and seed heights

The hard-coded checkpoints of the main network, the limit they put on alternative blocks, and
the height whose block seeds the proof of work.
-/

namespace Wownero

/-- A height and the id the main chain has there.  The cumulative difficulty the source's table
    carries beside it is read by no block rule. -/
structure Checkpoint where
  height : Nat
  hash : Hash256
  deriving DecidableEq, Repr

def mainnetCheckpoints : List Checkpoint :=
  [⟨1, 0x97f4ce4d7879b3bea54dcec738cd2ebb7952b4e9bb9743262310cd5fec749340⟩,
   ⟨6969, 0xaa7b66e8c461065139b55c29538a39c33ceda93e587f84d490ed573d80511c87⟩,
   ⟨53666, 0x3f43f56f66ef0c43cf2fd14d0d28fa2aae0ef8f40716773511345750770f1255⟩,
   ⟨63469, 0x4e33a9343fc5b86661ec0affaeb5b5a065290602c02d817337e4a979fe5747d8⟩,
   ⟨81769, 0x41db9fef8d0ccfa78b570ee9525d4f55de77b510c3ae4b08a1d51b9aec9ade1d⟩,
   ⟨82069, 0xfdea800d23d0b2eea19dec8af31e453e883e8315c97e25c8bb3e88ca164f8369⟩,
   ⟨114969, 0xb48245956b87f243048fd61021f4b3e5443e57eee7ff8ba4762d18926e80b80c⟩,
   ⟨115257, 0x338e056551087fe23d6c4b4280244bc5362b004716d85ec799a775f190f9fea9⟩,
   ⟨160777, 0x9496690579af21f38f00e67e11c2e85a15912fe4f412aad33d1162be1579e755⟩,
   ⟨253999, 0x755a289fe8a68e96a0f69069ba4007b676ec87dce2e47dfb9647fe5691f49883⟩,
   ⟨254287, 0xb37cb55abe73965b424f8028bf71bef98d069645077ffa52f0c134907b7734e3⟩,
   ⟨256700, 0x389a8ab95a80e84ec74639c1078bc67b33af208ef00f53bd9609cfc40efa7059⟩,
   ⟨271600, 0x9597cdbdc52ca57d7dbd8f9c0a23a73194ef2ebbcfdc75c21992672706108d43⟩,
   ⟨278300, 0xb10dcdf7a51651f60fbcc0447409773eef1458d2c706d9a61daf467571ac19c9⟩,
   ⟨282700, 0x79c06cafd7cb5f76bcebbf8f1ae16203bb41fd75b284bcd0eb0b457991ab7d4a⟩,
   ⟨307686, 0xdfd056b2739c132a07629409a59a028cb7414fac23e3419e79d2f49d66fc3af5⟩,
   ⟨307692, 0xd822cd72037f62824ec87c9dc11768b45dc2632f697fa372e1885789c90f37fc⟩,
   ⟨307735, 0x60970378aecdc0a78ccf5154edcc56f23aad8554b49e4716f820461a7588bfdc⟩,
   ⟨307742, 0x0ed835bc9fcd949b5a184cf607dcc62ac4268c9e4cf220f8b09bcce58f10916b⟩,
   ⟨307750, 0x7bcafbc757237125b70f569b181eb1b66c530b10d817d7b940f7a73dc827211c⟩,
   ⟨307766, 0x02fd6c7d6bae710cfa3efb08f50e4bc9a590f6ab61eabd87e5e951338c0c36f6⟩,
   ⟨307800, 0x3594894b4231cfdfe911afed6552f9fb4cfe6048bacd0973a3a98623ec8548ce⟩,
   ⟨307880, 0x659274b698f680c6cae2716cbd4e15ad5def23b5de98e53734c4af2c2e74bb7a⟩,
   ⟨307883, 0x9a8c35cd10963a14bba8a9628d1776df92fee5e3153b7249f5d15726efafaaea⟩,
   ⟨312130, 0xe0da085bd273fff9f5f8e604fce0e91908bc62b6b004731a93e16e89cb9b1f54⟩,
   ⟨324600, 0xb24cd1ed7c192bbcf3d5b15729f2b032566687f96bda6f8cb73a5b16df4c6e6b⟩,
   ⟨327700, 0xf113c8cbe077aab9296ecbfb41780c147aeb54edfece7e4b9946b8abd0f06de7⟩,
   ⟨331170, 0x05243fba853fe375c671a6783eecac28777bca51f5977d5285c235424e52bb69⟩,
   ⟨331458, 0xf79a664a5e4bc11fa7d804be2c3c72db50c87a27f1f540f337564cbb6314e4cd⟩,
   ⟨331891, 0xfaceea4b4ab33fc962c24dfa2f98c2aeda4788f67c1e0044c62419912c1a64fe⟩,
   ⟨332100, 0xd32c409058c1eceb9a105190c7a5f480b2d6f49f318b18652b49ae971c710124⟩,
   ⟨334000, 0x17d3b15f8e1a73e1c61335ee7979e9e3d211b9055e8a7fb2481e5f49a51b1c22⟩,
   ⟨348500, 0x2d43a157f369e2aa26a329b56456142ecd1361f5808c688d97112a2e3bbd23f4⟩,
   ⟨489400, 0xb14f49eae77398117ea93435676100d8b655a804689f73a5a4d0d5e71160d603⟩,
   ⟨491200, 0xcedba73ad35ce7f51aaca2beb36dc32d79ecc716d146eb8211e6a815f3666c4a⟩,
   ⟨497100, 0x2c4c70ac1ada94151f19d67ccf1aa4e846e6067f49f67c85cc03f78e768ea42b⟩,
   ⟨760300, 0x50ce41518bb4bea392194c13d0a5ef4cbf01ffb84ba393131e910adb63e2d360⟩,
   ⟨771100, 0x03e834788e1e33dbba9bc3431a81189cd655f9da80323a728fa0dae56a95145e⟩,
   ⟨838800, 0x85ee72059e12e10a574628cac6f8ebcf8cf6cc1624a274c4ead39ede548777cd⟩]

/-- `checkpoints::table`. -/
def checkpointTable : Network → List Checkpoint
  | .mainnet => mainnetCheckpoints
  | _ => []

/-- `Checkpoints::at`. -/
def checkpointAt (net : Network) (height : Nat) : Option Checkpoint :=
  (checkpointTable net).find? fun c => c.height == height

/-- `Checkpoints::is_alternative_block_allowed`. -/
def isAlternativeBlockAllowed (net : Network) (blockHeight : Nat) : Bool :=
  match (checkpointTable net).getLast? with
  | some last => blockHeight > last.height
  | none => true

/-- `rx_seedheight`: the last multiple of 2048 at least 65 blocks down. -/
def rxSeedheight (height : Nat) : Nat :=
  if height ≤ 2048 + 64 then 0 else (height - 64 - 1) / 2048 * 2048

end Wownero
