import StakedChain.Abi.Method
import StakedChain.Account.PrivateKey
import StakedChain.Block.Assembly
import StakedChain.Call.Queue
import StakedChain.Issue.Operation
import StakedChain.Staking.Query
import StakedChain.State.Ledger
import StakedChain.State.Script
import StakedChain.Proofs.Abi.RoundTrip
import StakedChain.Proofs.Block.Preimage
import StakedChain.Proofs.Staking.Enumeration
import StakedChain.Proofs.Block.Sender
import StakedChain.Proofs.Issue.Committed
import StakedChain.Proofs.Issue.Agreement
import StakedChain.Proofs.Issue.Validation
import StakedChain.Proofs.Block.Accumulation
import StakedChain.Proofs.Staking.Exchange
import StakedChain.Proofs.Staking.Halting
import StakedChain.Proofs.Issue.Recording
import StakedChain.Proofs.Block.Bloom
import StakedChain.Proofs.Issue.Effect
import StakedChain.Proofs.Block.RlpCanonical
import StakedChain.Proofs.Block.Unambiguous
import StakedChain.Proofs.Block.ChainBinding
import StakedChain.Proofs.Issue.Posting
import StakedChain.Proofs.Issue.Chronicle
import StakedChain.Proofs.Issue.Founding
import StakedChain.Proofs.Issue.Numbering
import StakedChain.Proofs.Abi.Acceptance
import StakedChain.Proofs.Abi.Truncation
import StakedChain.Proofs.Abi.Machine
import StakedChain.Proofs.Abi.InRange
import StakedChain.Proofs.Abi.Strictness
import StakedChain.Proofs.Abi.Refusal
import StakedChain.Proofs.Abi.Arrangement
import StakedChain.Proofs.Abi.Signature
import StakedChain.Proofs.Staking.Backlog
import StakedChain.Proofs.Staking.Course
import StakedChain.Proofs.Staking.InStep
import StakedChain.Proofs.Account.Recovery
import StakedChain.Proofs.Block.Signing
import StakedChain.Proofs.Abi.Rejection
import StakedChain.Proofs.Staking.Epoch
import StakedChain.Proofs.Abi.WordRow
import StakedChain.Proofs.Staking.Conversion
import StakedChain.Proofs.Staking.Reward
import StakedChain.Proofs.Issue.Sending
import StakedChain.Proofs.Staking.ReadBack
import StakedChain.Proofs.Block.ChainRange
import StakedChain.Proofs.State.Atomicity
import StakedChain.Proofs.State.Lifetime
import StakedChain.Proofs.Issue.Accord
