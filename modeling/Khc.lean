import Khc.Lib.Except
import Khc.Lib.Run
import Khc.Lib.Update
import Khc.Lib.Change
import Khc.Lib.Entries
import Khc.Chain.Asset
import Khc.Chain.Objects
import Khc.Chain.Database
import Khc.Chain.AssetEvaluator
import Khc.Chain.FinancingEvaluator
import Khc.Chain.Step
import Khc.Chain.Update
import Khc.Chain.Inversion
import Khc.Chain.FinancingInversion
import Khc.Chain.WellFormed
import Khc.Chain.Refund
import Khc.Project.Model
import Khc.Project.Refinement
import Khc.Project.Run
import Khc.Project.Events
import Khc.Project.Sound
import Khc.Project.History
import Khc.Project.Ledger
import Khc.Project.Failed
import Khc.Block.Transactions
import Khc.Db.ObjectDatabase
import Khc.Db.Operations
import Khc.Db.Changes
import Khc.Db.Record
import Khc.Db.Restore
import Khc.Db.Undo
import Khc.Db.Sessions
import Khc.Theorems.Schedule
import Khc.Theorems.Escrow
import Khc.Theorems.Payments
import Khc.Theorems.Tokens
import Khc.Theorems.Undo
import Khc.Theorems.Nesting
import Khc.Theorems.Replay
import Khc.Fork.Branches
import Khc.Fork.Node
import Khc.Fork.Retention
import Khc.Theorems.AtomicPush
import Khc.Theorems.ForkChoice
import Khc.Theorems.Irreversible
import Khc.Lib.Rows
import Khc.Market.Price
import Khc.Market.Objects
import Khc.Market.MaxDebt
import Khc.Market.Database
import Khc.Market.Fills
import Khc.Market.Settlement
import Khc.Market.Matching
import Khc.Market.Products
import Khc.Market.Evaluators
import Khc.Market.Blocks
import Khc.Market.Rates
import Khc.Market.Holdings
import Khc.Market.Funds
import Khc.Market.Deals
import Khc.Market.Outcomes
import Khc.Market.Matched
import Khc.Market.Settled
import Khc.Market.Consistent
import Khc.Market.Book
import Khc.Market.Rounds
import Khc.Market.Loops
import Khc.Market.Revived
import Khc.Market.Payouts
import Khc.Market.Operations
import Khc.Market.Accounts
import Khc.Market.Reachable
import Khc.Theorems.MarketFunds
import Khc.Theorems.Market
import Khc.Theorems.SettlementFund
import Khc.Market.Orderly
import Khc.Theorems.PricePriority
import Khc.Chain.Locks
import Khc.Theorems.Clocks
import Khc.Theorems.Power
import Khc.Lib.OrderStatistic
import Khc.Lib.Flat
import Khc.Market.Halting
import Khc.Market.Target
import Khc.Market.MarginRounds
import Khc.Payout.VestingBalance
import Khc.Theorems.LinearVesting
import Khc.Witness.Slots
import Khc.Theorems.Confirmations
import Khc.Block.BlockDatabase
import Khc.Theorems.BlockStore
import Khc.Theorems.FailedPower
import Khc.Theorems.IssueRates
import Khc.Chain.Issue
import Khc.Theorems.StuckEscrow
import Khc.Lib.Threshold
import Khc.Auth.Authority
import Khc.Auth.Verify
import Khc.Auth.Walk
import Khc.Auth.Signatures
import Khc.Auth.Required
import Khc.Theorems.Authorities
import Khc.Theorems.Addresses
import Khc.Auth.Proposal
import Khc.Auth.Unused
import Khc.Auth.KeyedProposals
import Khc.Theorems.Approvals
import Khc.Lib.Rations
import Khc.Budget.Maintenance
import Khc.Budget.Payroll
import Khc.Budget.Amounts
import Khc.Theorems.Budget
import Khc.Theorems.CoinDays
import Khc.Payout.CoinDays
import Khc.Chain.WithdrawPermission
import Khc.Theorems.WithdrawPermissions
import Khc.Fees.Objects
import Khc.Fees.Distribution
import Khc.Fees.Shares
import Khc.Fees.PayOut
import Khc.Fees.FeeBacked
import Khc.Theorems.Fees
import Khc.Db.SecondaryIndex
import Khc.Db.Listing
import Khc.Db.Relisting
import Khc.Db.Steady
import Khc.Auth.Indexes
import Khc.Theorems.AuthorityIndexes
import Khc.Lib.Bands
import Khc.Grouped.OrderGroups
import Khc.Lib.Ordered
import Khc.Grouped.Placement
import Khc.Grouped.Columns
import Khc.Grouped.Moves
import Khc.Grouped.Books
import Khc.Theorems.GroupedOrders
import Khc.Chain.Conversion
import Khc.Theorems.Melting
import Khc.Theorems.Conversions
import Khc.Theorems.RequiredPower
import Khc.Lib.Numeral
import Khc.Text.Amount
import Khc.Text.Reading
import Khc.Text.Shapes
import Khc.Text.Misplaced
import Khc.Theorems.AmountGrammar
import Khc.Theorems.AmountRoundTrip
import Khc.Blind.Hidden
import Khc.Blind.Effects
import Khc.Theorems.FairMatch
import Khc.Theorems.MarginTarget
import Khc.Feeds.MedianFeed
import Khc.Theorems.MedianFeed
import Khc.Lib.Halving
import Khc.Market.Int128
import Khc.Theorems.PriceScaling
import Khc.Theorems.Elections
import Khc.Theorems.EmptyIssue
import Khc.Theorems.ProRata
import Khc.Theorems.ClaimScan
import Khc.Lib.Codec
import Khc.Serial.Extension
import Khc.Theorems.ExtensionCodec
import Khc.Theorems.VoteCount
import Khc.Block.Merkle
import Khc.Theorems.MerkleRoot
import Khc.Fork.Calls
import Khc.Theorems.BranchFetch
import Khc.Theorems.Slots
import Khc.Fees.FeeSchedule
import Khc.Theorems.FeeInAsset
import Khc.Theorems.AccountFee
import Khc.Theorems.MarginPrices
import Khc.Text.MarketData
import Khc.Theorems.MarketData
import Khc.Lib.Greedy
import Khc.Auth.Minimize
import Khc.Theorems.Minimization
import Khc.Theorems.ConfidentialSupply
import Khc.Theorems.SyncProtocol
import Khc.Theorems.SyncCompletion
import Khc.Theorems.SyncRequests
import Khc.Theorems.AccountHistory
import Khc.History.MarketHistory
