import FstWaveDemo.Parser.Conflicts
import FstWaveDemo.Parser.Expr
import FstWaveDemo.Parser.Modes
import FstWaveDemo.Parser.Counters
import FstWaveDemo.Parser.Unknown
import FstWaveDemo.Parser.Positions
import FstWaveDemo.Parser.Widths
import FstWaveDemo.Parser.Memories
import FstWaveDemo.Parser.Uses
import FstWaveDemo.Gcd.GCD
import FstWaveDemo.Parser.Splitter
import FstWaveDemo.Parser.Workers
import FstWaveDemo.Parser.Strings
import FstWaveDemo.Parser.Spacing
import FstWaveDemo.Parser.Ends
import FstWaveDemo.Parser.Dump
import FstWaveDemo.SplitNode.Segments
import FstWaveDemo.SplitNode.Denotation
