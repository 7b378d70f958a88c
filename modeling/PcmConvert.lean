import PcmConvert.Document.Config
import PcmConvert.Resampler
import PcmConvert.Proofs.Rate.Contract
import PcmConvert.Proofs.Rate.Nearest
import PcmConvert.Proofs.Rate.Chunked
import PcmConvert.Proofs.Rate.Peaks
import PcmConvert.Proofs.Rate.Polyphase
import PcmConvert.Proofs.Rate.Sinc
import PcmConvert.Proofs.Mix.Shape
import PcmConvert.Proofs.Pipeline.Alike
import PcmConvert.Proofs.Rate.Converter
import PcmConvert.Proofs.Resampler.Bound
import PcmConvert.Proofs.Resampler.Pieces
import PcmConvert.Proofs.Rate.Sinc.Windows
import PcmConvert.Proofs.Rate.Polyphase.Direct
import PcmConvert.Proofs.Rate.Polyphase.Interleaved
import PcmConvert.Proofs.Rate.Tuning
import PcmConvert.Proofs.Resampler.Invariant
import PcmConvert.Proofs.Resampler.RateChange
import PcmConvert.Proofs.Resampler.Creation
import PcmConvert.Proofs.Resampler.Books
import PcmConvert.Proofs.Number.Binary32
import PcmConvert.Proofs.Mix.Links
import PcmConvert.Proofs.Mix.Identity
import PcmConvert.Proofs.Mix.Scaled
import PcmConvert.Proofs.Mix.Order
import PcmConvert.Proofs.Resampler.Passthrough
import PcmConvert.Proofs.Rate.Follows
import PcmConvert.Proofs.Rate.Picks
import PcmConvert.Proofs.Mix.StageOrder
import PcmConvert.Proofs.Resampler.Requests
import PcmConvert.Proofs.Pipeline.Course
import PcmConvert.Proofs.Resampler.Blocks
import PcmConvert.Proofs.Rate.Stream
import PcmConvert.Proofs.Rate.Counters
import PcmConvert.Proofs.Rate.Nearest.Direct
import PcmConvert.Proofs.Rate.Peaks.Direct
import PcmConvert.Proofs.Rate.Sinc.Direct
import PcmConvert.Proofs.Mix.Heard
import PcmConvert.Proofs.Mix.Routes
import PcmConvert.Proofs.Rate.Polyphase.Counts
import PcmConvert.Proofs.Rate.Sinc.Retuned
import PcmConvert.Proofs.Rate.Unity
import PcmConvert.Proofs.Resampler.Sizes
import PcmConvert.Proofs.Mix.Copies
import PcmConvert.Proofs.Mix.Accuracy
import PcmConvert.Proofs.Mix.InputOrder
import PcmConvert.Proofs.Sample.Companding
import PcmConvert.Proofs.Sample.RoundTrip
import PcmConvert.Proofs.Lists
import PcmConvert.Proofs.Text.Reading
import PcmConvert.Proofs.Channel.MapText
import PcmConvert.Proofs.Resampler.SizeArithmetic
